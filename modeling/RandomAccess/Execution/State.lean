import RandomAccess.Program.Basic

/-!
# The state of a run and its steps

A step first decides what its instruction does and whether that fails, and only then changes the
state. A step that fails therefore changes nothing but the status, and a run that has ended is
never changed again.
-/

namespace RandomAccess

/-- Whether a run goes on, and why it does not. -/
inductive Status where
  /-- The next step can be made. -/
  | running
  /-- The run has reached `HALT`. -/
  | halted
  /-- A step has failed. -/
  | faulted (fault : Fault)
  deriving DecidableEq, Repr, Inhabited

/-- A run between two steps. -/
structure State where
  /-- The program counter: the position of the next instruction. -/
  counter : Nat
  /-- The registers, with the storage that they have grown to. -/
  registers : RegisterFile
  /-- The input values that are not yet read. -/
  input : List Int64
  /-- The number of input values that were read. -/
  consumed : Nat
  /-- The output values in the order in which they were written. -/
  output : Array Int64
  /-- Whether the run goes on. -/
  status : Status
  /-- The number of steps that succeeded. -/
  steps : Nat
  deriving Repr, Inhabited

/-- An executed instruction. -/
structure Step where
  /-- The position from which it was fetched. -/
  position : Nat
  /-- The instruction itself. -/
  instruction : Instruction
  /-- The registers right after it, up to the highest index written. -/
  registers : RegisterFile
  deriving Repr, Inhabited, BEq

/-- What an instruction that does not fail does to the state. -/
inductive Effect where
  /-- Puts a value into the accumulator. -/
  | load (value : Int64)
  /-- Writes a value to a register. -/
  | store (index : Nat) (value : Int64)
  /-- Writes the next input value to a register and takes it from the tape. -/
  | read (index : Nat) (value : Int64)
  /-- Appends a value to the output. -/
  | write (value : Int64)
  /-- Goes on at a position. -/
  | goto (position : Nat)
  /-- Ends the run. -/
  | halt
  deriving DecidableEq, Repr, Inhabited

namespace State

/-- The state before the first step. -/
def start (input : List Int64) (registers : RegisterFile) : State where
  counter := 1
  registers := registers
  input := input
  consumed := 0
  output := #[]
  status := .running
  steps := 0

/-- What an instruction does in a state, or the fault that it meets there. A read looks at the
tape before it looks at the register. -/
def effect (state : State) : Instruction → Except Fault Effect
  | .load operand => return .load (← operand.resolve state.registers)
  | .store target => do
      state.registers.check target.address
      return .store target.address state.registers.accumulator
  | .arith op operand => do
      let value ← operand.resolve state.registers
      return .load (← op.apply state.registers.accumulator value)
  | .jump position => return .goto position.toNat
  | .branch condition position =>
      if condition.holds state.registers.accumulator then
        return .goto position.toNat
      else
        return .goto (state.counter + 1)
  | .read target =>
      match state.input with
      | [] => .error (.inputExhausted state.consumed)
      | value :: _ => do
          state.registers.check target.address
          return .read target.address value
  | .write operand => return .write (← operand.resolve state.registers)
  | .halt => return .halt

/-- The state after an effect, one step later. -/
def perform (state : State) : Effect → State
  | .load value =>
      { state with
        registers := state.registers.load value
        counter := state.counter + 1
        steps := state.steps + 1 }
  | .store index value =>
      { state with
        registers := state.registers.write index value
        counter := state.counter + 1
        steps := state.steps + 1 }
  | .read index value =>
      { state with
        registers := state.registers.write index value
        input := state.input.tail
        consumed := state.consumed + 1
        counter := state.counter + 1
        steps := state.steps + 1 }
  | .write value =>
      { state with
        output := state.output.push value
        counter := state.counter + 1
        steps := state.steps + 1 }
  | .goto position => { state with counter := position, steps := state.steps + 1 }
  | .halt => { state with status := .halted, steps := state.steps + 1 }

/-- The next instruction and its effect, or the fault of the step. -/
def next (state : State) (program : Program) : Except Fault (Instruction × Effect) := do
  let instruction ← program.fetch state.counter
  return (instruction, ← state.effect instruction)

/-- Makes one step. A fault ends the run and leaves everything else as it was; a run that has
ended stays as it is. -/
def step (state : State) (program : Program) : Except Fault Step × State :=
  match state.status with
  | .running =>
      match state.next program with
      | .ok (instruction, effect) =>
          let position := state.counter
          let after := state.perform effect
          (.ok ⟨position, instruction, after.registers.snapshot⟩, after)
      | .error fault => (.error fault, { state with status := .faulted fault })
  | .halted | .faulted _ => (.error .notRunning, state)

/-- A run that has ended answers every step alike and stays as it is. -/
theorem step_of_not_running {state : State} (program : Program) (h : state.status ≠ .running) :
    state.step program = (.error .notRunning, state) := by
  unfold step
  split
  · contradiction
  · rfl
  · rfl

end State

end RandomAccess
