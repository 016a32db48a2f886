import Mathlib.Data.List.Basic
import RandomAccess.Proofs.Execution.Causes
import RandomAccess.Proofs.Execution.Returning
import RandomAccess.Proofs.Memory.Equality

/-!
# The cause of a failure

A failure tells a fault and a position, and its trace tells the registers that the run has left. No
more is needed to see that the fault is right: the instruction at the position, on these registers,
meets it. What storage the run had, and which path it took, does not come into this.
-/

namespace RandomAccess

/-- The registers after a trace: those that its last step has recorded, or new ones. -/
def RegisterFile.recorded (trace : List Step) : RegisterFile :=
  (trace.getLast?.map Step.registers).getD (.withCapacity defaultCapacity)

/-- Why a run fails at a position after a trace, told by the machine and the trace alone. -/
def Machine.Explains (machine : Machine) (trace : List Step) (position : Nat) : Fault → Prop
  | .divisionByZero => ∃ operand,
      machine.program.get? position = some (.arith .div operand) ∧
      operand.resolve (.recorded trace) = .ok 0
  | .arithmeticOverflow mnemonic => ∃ op operand value number,
      machine.program.get? position = some (.arith op operand) ∧
      mnemonic = (Instruction.arith op operand).mnemonic ∧
      operand.resolve (.recorded trace) = .ok value ∧
      Ram.Computes op ((RegisterFile.recorded trace).get 0).toInt value.toInt number ∧
      ¬ Ram.Representable number
  | .negativeAddress value => ∃ instruction address,
      machine.program.get? position = some instruction ∧
      instruction.operand? = some (.indirect address) ∧
      (RegisterFile.recorded trace).get address.toNat = value ∧ value < 0
  | .inputExhausted _ => ∃ target, machine.program.get? position = some (.read target)
  | .registerLimit index limit => ∃ instruction target,
      machine.program.get? position = some instruction ∧
      (instruction = .store target ∨ instruction = .read target) ∧
      index = target.address ∧ limit = max machine.config.registerLimit 1 ∧ limit ≤ index
  | .invalidProgramCounter found size =>
      found = position ∧ size = machine.program.size ∧ (found = 0 ∨ size < found)
  | .stepLimitExceeded limit =>
      machine.config.stepLimit = some limit ∧ trace.length = limit
  | .notRunning => False

/-- An operand from which a value is taken is the instruction's only one. -/
theorem Instruction.operand?_of_source? {instruction : Instruction} {operand : Operand}
    (h : instruction.source? = some operand) : instruction.operand? = some operand := by
  cases instruction with
  | load _ | arith _ _ | write _ => exact h
  | store _ | jump _ | branch _ _ | read _ | halt => cases h

namespace State

variable {program : Program} {first last : State} {steps : List Step}

/-- The last of the steps that are made has recorded the registers that they lead to. -/
theorem Makes.registers_getLast (h : first.Makes program steps last) :
    steps = [] ∧ last = first ∨
      ∃ step, steps.getLast? = some step ∧ step.registers = last.registers.snapshot := by
  induction h with
  | nil => exact .inl ⟨rfl, rfl⟩
  | @cons first middle last step steps hstep _ ih =>
    right
    rcases ih with ⟨rfl, rfl⟩ | ⟨found, hlast, hregisters⟩
    · obtain ⟨-, _, _, -, -, -, rfl⟩ := step_eq_ok_iff.mp hstep
      exact ⟨_, rfl, rfl⟩
    · refine ⟨found, ?_, hregisters⟩
      rw [List.getLast?_cons, hlast, Option.getD_some]

end State

namespace Machine

variable {machine : Machine} {input : List Int64} {fault : Fault} {position : Nat}
  {trace : List Step} {state : State}

/-- The registers after a trace are those of the state that it leads to. -/
theorem get_recorded (h : (machine.start input).Makes machine.program trace state) (index : Nat) :
    (RegisterFile.recorded trace).get index = state.registers.get index := by
  have hw := (h.registers (wellFormed_start machine input)).1
  rcases h.registers_getLast with ⟨rfl, rfl⟩ | ⟨step, hlast, hregisters⟩
  · rw [(machine.registers_start input).2]
    exact RegisterFile.get_withCapacity ..
  · rw [RegisterFile.recorded, hlast, Option.map_some, Option.getD_some, hregisters,
      hw.get_snapshot]

/-- The cause that an instruction has in the last state can be seen from the trace. -/
theorem explains_of_cause {instruction : Instruction}
    (hl : max machine.config.registerLimit 1 ≤ RegisterFile.largestCapacity)
    (hmakes : (machine.start input).Makes machine.program trace state)
    (hget : machine.program.get? state.counter = some instruction)
    (hcause : state.Cause instruction fault) : machine.Explains trace state.counter fault := by
  have hsame := get_recorded hmakes
  have hresolve (operand : Operand) :
      operand.resolve (.recorded trace) = operand.resolve state.registers :=
    operand.resolve_congr hsame
  have hlimit : state.registers.limit = max machine.config.registerLimit 1 :=
    (hmakes.registers (wellFormed_start machine input)).2
  cases fault with
  | divisionByZero =>
    obtain ⟨operand, rfl, hzero⟩ := hcause
    exact ⟨operand, hget, (hresolve operand).trans hzero⟩
  | arithmeticOverflow mnemonic =>
    obtain ⟨op, operand, value, number, rfl, rfl, hvalue, hresult, hrange⟩ := hcause
    refine ⟨op, operand, value, number, hget, rfl, (hresolve operand).trans hvalue, ?_, hrange⟩
    rwa [hsame]
  | negativeAddress value =>
    obtain ⟨address, hsource, hvalue, hneg⟩ := hcause
    exact ⟨instruction, address, hget, Instruction.operand?_of_source? hsource,
      (hsame _).trans hvalue, hneg⟩
  | inputExhausted consumed =>
    obtain ⟨⟨target, rfl⟩, -⟩ := hcause
    exact ⟨target, hget⟩
  | registerLimit index limit =>
    obtain ⟨target, hwrites, rfl, rfl, hrefused⟩ := hcause
    rw [RegisterFile.admits_iff_lt (hlimit ▸ hl)] at hrefused
    exact ⟨instruction, target, hget, hwrites, rfl, hlimit, Nat.le_of_not_lt hrefused⟩
  | invalidProgramCounter | stepLimitExceeded | notRunning => exact hcause.elim

/-- Every failure names its true cause: its fault is one that the instruction at its position meets
on the registers after its trace, or the lost position itself, or the limit of steps. -/
theorem failure_names_cause {fuel : Nat}
    (hl : machine.config.registerLimit ≤ RegisterFile.largestCapacity)
    (h : machine.run? fuel input = some (.failure fault position trace)) :
    machine.Explains trace position fault := by
  have hbound : max machine.config.registerLimit 1 ≤ RegisterFile.largestCapacity :=
    Nat.max_le.mpr ⟨hl, RegisterFile.largestCapacity_pos⟩
  obtain ⟨state, hmakes, rfl, hfails | ⟨limit, rfl, hlimit, hlength⟩⟩ :=
    (returns_iff_ends.mp ⟨fuel, h⟩).of_failure
  · cases hfails with
    | outside hget => exact ⟨rfl, rfl, Program.get?_eq_none_iff.mp hget⟩
    | refused hget hmeets => exact explains_of_cause hbound hmakes hget hmeets.cause
  · exact ⟨hlimit, hlength⟩

/-- The divisor stands in a register past the first storage, and the quotient is one more than the
largest value. -/
theorem failure_names_cause_quotient :
    let program := Program.ofList [.read (.direct 20), .load (.literal Int64.minValue),
      .arith .div (.direct 20), .halt]
    let machine : Machine := { program }
    machine.config.registerLimit ≤ RegisterFile.largestCapacity ∧
      ∃ trace, machine.run? 3 [-1] = some (.failure (.arithmeticOverflow "DIV") 3 trace) ∧
        machine.Explains trace 3 (.arithmeticOverflow "DIV") := by
  intro program machine
  have hl : machine.config.registerLimit ≤ RegisterFile.largestCapacity := by decide
  have hrun : (machine.run? 3 [-1]).map (fun outcome => (outcome.result, outcome.position?)) =
      some (.error (.arithmeticOverflow "DIV"), some 3) := by decide +kernel
  obtain ⟨outcome, houtcome, hview⟩ := Option.map_eq_some_iff.mp hrun
  cases outcome with
  | success output trace => cases hview
  | failure fault position trace =>
    obtain ⟨rfl, rfl⟩ : fault = .arithmeticOverflow "DIV" ∧ position = 3 := by
      simpa [Outcome.result, Outcome.position?] using hview
    exact ⟨hl, trace, houtcome, failure_names_cause hl houtcome⟩

end Machine

end RandomAccess
