import RandomAccess.Proofs.Execution.Stepping
import RandomAccess.Proofs.InPlace.Registers

/-!
# Steps in place

A step as the sequence of single changes that it is made of. The registers are changed before the
tapes, nothing keeps an instruction from failing after a change, and the counters of a state are
machine words. Under the invariant of the states of a run every operation stays in range, and a
step in place is a step.
-/

namespace RandomAccess

/-- The value under the head of the input tape. -/
def State.front (state : State) : Except Fault Int64 :=
  match state.input with
  | [] => .error (.inputExhausted state.consumed)
  | value :: _ => .ok value

namespace InPlace

variable {α : Type}

/-- Where a run goes on after an instruction. -/
inductive Flow where
  /-- At the position after it. -/
  | next
  /-- At a position that it has given. -/
  | goto (position : Nat)
  /-- Nowhere. -/
  | halt
  deriving DecidableEq, Repr, Inhabited

/-- An action on the registers of a run. -/
def onRegisters (action : InPlace RegisterFile α) : InPlace State α :=
  ExceptT.mk fun state =>
    (action.exec state.registers).map fun (result, registers) =>
      (result, { state with registers := registers })

/-- The value of an operand. -/
def resolve (operand : Operand) : InPlace State Int64 := do
  let state ← get
  ofExcept (operand.resolve state.registers)

/-- Everything that an instruction does except for moving the program counter. -/
def execute : Instruction → InPlace State Flow
  | .load operand => do
      let value ← resolve operand
      onRegisters (setCell 0 value)
      return .next
  | .store target => do
      let accumulator ← onRegisters (cell 0)
      onRegisters (assign target.address accumulator)
      return .next
  | .arith op operand => do
      let value ← resolve operand
      onRegisters (combine op value)
      return .next
  | .jump position => return .goto position.toNat
  | .branch condition position => do
      let accumulator ← onRegisters (cell 0)
      if condition.holds accumulator then
        return .goto position.toNat
      else
        let state ← get
        return .goto (← word (state.counter + 1))
  | .read target => do
      let state ← get
      let value ← ofExcept state.front
      onRegisters (assign target.address value)
      modify fun state => { state with input := state.input.tail }
      let consumed ← word (state.consumed + 1)
      modify fun state => { state with consumed := consumed }
      return .next
  | .write operand => do
      let value ← resolve operand
      modify fun state => { state with output := state.output.push value }
      return .next
  | .halt => return .halt

/-- Moves the program counter, or ends the run. -/
def follow : Flow → InPlace State Unit
  | .next => do
      let state ← get
      let following ← word (state.counter + 1)
      modify fun state => { state with counter := following }
  | .goto position => modify fun state => { state with counter := position }
  | .halt => modify fun state => { state with status := .halted }

/-- Goes on after an instruction that has succeeded, one step later. -/
def proceed (flow : Flow) : InPlace State Unit := do
  follow flow
  let state ← get
  let steps ← word (state.steps + 1)
  modify fun state => { state with steps := steps }

/-- Executes an instruction and goes on after it. -/
def carryOut (instruction : Instruction) : InPlace State Unit := do
  let flow ← execute instruction
  proceed flow

/-- Makes a step of a run that goes on. -/
def advance (program : Program) : InPlace State Step := do
  let state ← get
  let instruction ← ofExcept (program.fetch state.counter)
  carryOut instruction
  let registers ← onRegisters snapshot
  return ⟨state.counter, instruction, registers⟩

/-- Ends the run with a fault. -/
def stop (fault : Fault) : InPlace State α := do
  modify fun state => { state with status := .faulted fault }
  throw fault

/-- Makes a step, and keeps its fault if it has one. -/
def step (program : Program) : InPlace State Step := do
  let state ← get
  if state.status = .running then
    tryCatch (advance program) stop
  else
    throw .notRunning

/-- The answers of one step after another in place, each with a program of its own. -/
def stepAll (state : State) : List Program → Option (List (Except Fault Step) × State)
  | [] => some ([], state)
  | program :: programs => do
      let (answer, middle) ← (step program).exec state
      let (answers, after) ← stepAll middle programs
      return (answer :: answers, after)

@[simp] theorem exec_onRegisters (action : InPlace RegisterFile α) (state : State) :
    (onRegisters action).exec state =
      (action.exec state.registers).map fun (result, registers) =>
        (result, { state with registers := registers }) := rfl

@[simp] theorem exec_resolve (operand : Operand) (state : State) :
    (resolve operand).exec state = some (operand.resolve state.registers, state) := by
  simp only [resolve, exec_bind, exec_get, exec_ofExcept]

@[simp] theorem exec_stop (fault : Fault) (state : State) :
    (stop fault : InPlace State α).exec state =
      some (.error fault, { state with status := .faulted fault }) := by
  simp only [stop, exec_bind, exec_modify, exec_throw]

variable {state : State} {program : Program}

theorem exec_proceed_next (hcounter : state.counter + 1 < UInt64.size)
    (hsteps : state.steps + 1 < UInt64.size) :
    (proceed .next).exec state =
      some (.ok (), { state with counter := state.counter + 1, steps := state.steps + 1 }) := by
  simp only [proceed, follow, exec_bind, exec_get, exec_word hcounter, exec_modify,
    exec_word hsteps]

theorem exec_proceed_goto (hsteps : state.steps + 1 < UInt64.size) (position : Nat) :
    (proceed (.goto position)).exec state =
      some (.ok (), { state with counter := position, steps := state.steps + 1 }) := by
  simp only [proceed, follow, exec_bind, exec_get, exec_modify, exec_word hsteps]

theorem exec_proceed_halt (hsteps : state.steps + 1 < UInt64.size) :
    (proceed .halt).exec state =
      some (.ok (), { state with status := .halted, steps := state.steps + 1 }) := by
  simp only [proceed, follow, exec_bind, exec_get, exec_modify, exec_word hsteps]

end InPlace

/-- Storage was had for all registers, and the limit is a machine word. No more values were read
than steps were made. -/
structure State.InRange (state : State) : Prop where
  wellFormed : state.registers.WellFormed
  capacity_le : state.registers.capacity ≤ RegisterFile.largestCapacity
  limit_lt : state.registers.limit < UInt64.size
  consumed_le : state.consumed ≤ state.steps

/-- What an instruction writes takes no storage that could not be had. -/
theorem Effect.capacity_update_le {effect : Effect} {registers : RegisterFile}
    (hf : effect.Fits registers) (h : registers.capacity ≤ RegisterFile.largestCapacity) :
    (effect.update registers).capacity ≤ RegisterFile.largestCapacity := by
  cases effect with
  | load value => simpa [update] using h
  | store index value | read index value =>
    rw [update, RegisterFile.capacity_write value (RegisterFile.lt_limit_of_admits hf)]
    exact RegisterFile.capacityFor_le_of_admits hf h
  | write value | goto position | halt => exact h

namespace State.InRange

variable {state : State}

/-- The copy of a step reaches up to an index that is a machine word. -/
theorem maxWritten_lt (h : state.InRange) :
    state.registers.maxWritten + 1 < UInt64.size := by
  have hlt := h.wellFormed.maxWritten_lt
  have hle := h.capacity_le
  have hword := RegisterFile.largestCapacity_lt_size
  omega

theorem fault (h : state.InRange) (fault : Fault) :
    InRange { state with status := .faulted fault } :=
  ⟨h.wellFormed, h.capacity_le, h.limit_lt, h.consumed_le⟩

theorem perform (h : state.InRange) {instruction : Instruction} {effect : Effect}
    (hyields : state.Yields instruction effect) : (state.perform effect).InRange where
  wellFormed := by
    rw [registers_perform]
    exact Effect.wellFormed_update h.wellFormed hyields.fits
  capacity_le := by
    rw [registers_perform]
    exact Effect.capacity_update_le hyields.fits h.capacity_le
  limit_lt := by
    rw [registers_perform, Effect.limit_update]
    exact h.limit_lt
  consumed_le := by
    have hle := h.consumed_le
    cases effect with
    | read index value => exact Nat.succ_le_succ hle
    | load value | store index value | write value | goto position | halt =>
      exact Nat.le_succ_of_le hle

theorem step (h : state.InRange) (program : Program) : (state.step program).2.InRange :=
  step_preserves (fun fault hs => hs.fault fault) (fun hs _ _ hyields => hs.perform hyields) h

end State.InRange

namespace InPlace

variable {state : State} {program : Program}

/-- An instruction that is carried out in place has its effect, and one that fails has none. -/
theorem exec_carryOut (h : state.InRange) (hcounter : state.counter + 1 < UInt64.size)
    (hsteps : state.steps + 1 < UInt64.size) (instruction : Instruction) :
    (carryOut instruction).exec state =
      some (match state.effect instruction with
        | .ok effect => (.ok (), state.perform effect)
        | .error fault => (.error fault, state)) := by
  have hc := h.wellFormed.capacity_pos
  have hcell : (cell 0).exec state.registers =
      some (.ok state.registers.accumulator, state.registers) := exec_cell hc
  have hassign (index : Nat) (value : Int64) :
      (assign index value).exec state.registers =
        some (state.registers.settle (state.registers.set index value)) :=
    exec_assign hc h.limit_lt value
  rw [carryOut, exec_bind]
  cases instruction with
  | load operand =>
    simp only [execute, exec_bind, exec_resolve, State.effect]
    cases operand.resolve state.registers with
    | error fault => rfl
    | ok value =>
      simp only [exec_onRegisters, exec_setCell hc, Option.map_some, exec_pure]
      exact exec_proceed_next hcounter hsteps
  | store target =>
    simp only [execute, exec_bind, exec_onRegisters, hcell, Option.map_some, hassign,
      RegisterFile.set, State.effect]
    cases state.registers.check target.address with
    | error fault => rfl
    | ok _ => exact exec_proceed_next hcounter hsteps
  | arith op operand =>
    simp only [execute, exec_bind, exec_resolve, State.effect]
    cases operand.resolve state.registers with
    | error fault => rfl
    | ok value =>
      simp only [exec_onRegisters, exec_combine hc, Option.map_some, RegisterFile.combine, bind,
        Except.bind]
      cases op.apply state.registers.accumulator value with
      | error fault => rfl
      | ok result => exact exec_proceed_next hcounter hsteps
  | jump position => exact exec_proceed_goto hsteps _
  | branch condition position =>
    simp only [execute, exec_bind, exec_onRegisters, hcell, Option.map_some, State.effect]
    by_cases ht : condition.holds state.registers.accumulator = true
    · simp only [if_pos ht, exec_pure]
      exact exec_proceed_goto hsteps _
    · simp only [if_neg ht, exec_bind, exec_get, exec_word hcounter, exec_pure]
      exact exec_proceed_goto hsteps _
  | read target =>
    have hconsumed : state.consumed + 1 < UInt64.size := by
      have hle := h.consumed_le
      omega
    simp only [execute, exec_bind, exec_get, exec_ofExcept, State.front, State.effect]
    cases state.input with
    | nil => rfl
    | cons value rest =>
      simp only [exec_onRegisters, Option.map_some, hassign, RegisterFile.set]
      cases state.registers.check target.address with
      | error fault => rfl
      | ok _ =>
        simp only [bind, Except.bind, pure, Except.pure, RegisterFile.settle, exec_modify,
          exec_word hconsumed]
        exact exec_proceed_next hcounter hsteps
  | write operand =>
    simp only [execute, exec_bind, exec_resolve, State.effect]
    cases operand.resolve state.registers with
    | error fault => rfl
    | ok value => exact exec_proceed_next hcounter hsteps
  | halt => exact exec_proceed_halt hsteps

/-- A step in place stays in range, and is a step. -/
theorem exec_step (h : state.InRange) (hp : program.size + 1 < UInt64.size)
    (hsteps : state.steps + 1 < UInt64.size) :
    (step program).exec state = some (state.step program) := by
  by_cases hrun : state.status = .running
  · simp only [step, exec_bind, exec_get, if_pos hrun, exec_tryCatch, advance, exec_ofExcept]
    cases hget : program.get? state.counter with
    | none =>
      rw [Program.fetch_of_get?_eq_none hget, State.step_of_fails hrun (.outside hget)]
      simp only [exec_stop]
    | some instruction =>
      rw [Program.fetch_of_get? hget]
      -- a jump may have gone to the largest word, but nothing is fetched from there
      have hcounter : state.counter + 1 < UInt64.size := by
        have hle := (Program.le_size_of_get? hget).2
        omega
      simp only [exec_carryOut h hcounter hsteps]
      cases heffect : state.effect instruction with
      | error fault =>
        have hmeets := State.effect_eq_error_iff.mp heffect
        rw [State.step_of_fails hrun (.refused hget hmeets)]
        simp only [exec_stop]
      | ok effect =>
        have hyields := State.effect_eq_ok_iff.mp heffect
        have hafter := h.perform hyields
        rw [State.step_of_yields hrun hget hyields]
        simp only [exec_onRegisters, Option.map_some, exec_pure,
          exec_snapshot hafter.wellFormed.maxWritten_lt hafter.maxWritten_lt]
  · rw [State.step_of_not_running program hrun]
    simp only [step, exec_bind, exec_get, if_neg hrun, exec_throw]

end InPlace

end RandomAccess
