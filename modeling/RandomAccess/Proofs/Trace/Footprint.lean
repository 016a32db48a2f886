import RandomAccess.Program.Sample
import RandomAccess.Proofs.Trace.Failure
import RandomAccess.Proofs.Trace.Path

/-!
# The footprint of a program

A run writes the accumulator and the registers that the text of its program names, and no others.
An address that is computed is only ever read through, and growing storage writes nothing. So the
highest index written is the greatest one among the steps made, and a limit above all indices that
the program names is never met.
-/

namespace RandomAccess

/-- The index of the register that an instruction names to be written. -/
def Instruction.written? : Instruction → Option Nat
  | .store target | .read target => some target.address
  | .load _ | .arith _ _ | .jump _ | .branch _ _ | .write _ | .halt => none

/-- An instruction of the program names the register to be written. -/
def Program.Names (program : Program) (index : Nat) : Prop :=
  ∃ instruction ∈ program.instructions, instruction.written? = some index

/-- The indices that steps have written, in the order of the steps. -/
def Step.written (steps : List Step) : List Nat :=
  steps.filterMap fun step => step.instruction.written?

namespace Step

/-- The greatest index that steps write is that of the first one or that of the others. -/
theorem max?_written_cons (step : Step) (steps : List Step) :
    (written (step :: steps)).max?.getD 0 =
      max (step.instruction.written?.getD 0) ((written steps).max?.getD 0) := by
  cases hwritten : step.instruction.written? with
  | none =>
    have hcons : written (step :: steps) = written steps :=
      List.filterMap_cons_none hwritten
    rw [hcons, Option.getD_none, Nat.zero_max]
  | some index =>
    have hcons : written (step :: steps) = index :: written steps :=
      List.filterMap_cons_some hwritten
    rw [hcons, List.max?_cons, Option.getD_some, Option.getD_some]
    cases (written steps).max? with
    | none => exact (Nat.max_zero index).symm
    | some greatest => rfl

/-- What the steps write is written by the first of them or by the others. -/
theorem mem_written_cons {step : Step} {steps : List Step} {index : Nat} :
    index ∈ written (step :: steps) ↔
      step.instruction.written? = some index ∨ index ∈ written steps := by
  simp [written, List.mem_filterMap]

end Step

namespace State

variable {state first last : State} {program : Program} {instruction : Instruction}
  {effect : Effect} {steps : List Step} {index : Nat}

/-- An effect raises the highest index written to the one that its instruction names. -/
theorem Yields.maxWritten_update (h : state.Yields instruction effect) :
    (effect.update state.registers).maxWritten =
      max state.registers.maxWritten (instruction.written?.getD 0) := by
  cases h with
  | store | read => rfl
  | load | arith | jump | taken | untaken | write | halt => exact (Nat.max_zero _).symm

/-- An effect leaves all registers but the accumulator and the one that its instruction names. -/
theorem Yields.get_update_of_ne (h : state.Yields instruction effect)
    (hw : state.registers.WellFormed) (hzero : index ≠ 0)
    (hother : instruction.written? ≠ some index) :
    (effect.update state.registers).get index = state.registers.get index := by
  have hc := hw.capacity_pos
  cases h with
  | load | arith =>
    rw [Effect.update, RegisterFile.get_load _ hc, if_neg hzero]
  | @store target hadmits | @read target _ _ _ hadmits =>
    have hne : index ≠ target.address := fun he => hother (congrArg some he.symm)
    rw [Effect.update, RegisterFile.get_write _ hc (RegisterFile.lt_limit_of_admits hadmits),
      if_neg hne]
  | jump | taken | untaken | write | halt => rfl

namespace Makes

/-- Steps that are made raise the highest index written to the greatest one that they write. -/
theorem maxWritten (h : first.Makes program steps last) :
    last.registers.maxWritten =
      max first.registers.maxWritten ((Step.written steps).max?.getD 0) := by
  induction h with
  | nil => exact (Nat.max_zero _).symm
  | @cons first middle last step steps hstep _ ih =>
    obtain ⟨-, instruction, effect, -, hyields, rfl, rfl⟩ := step_eq_ok_iff.mp hstep
    rw [ih, registers_perform, hyields.maxWritten_update, Nat.max_assoc, Step.max?_written_cons]

/-- A register that no step writes is left, unless it is the accumulator. -/
theorem get_of_not_written (h : first.Makes program steps last) (hw : first.registers.WellFormed)
    (hzero : index ≠ 0) (hnone : index ∉ Step.written steps) :
    last.registers.get index = first.registers.get index := by
  induction h with
  | nil => rfl
  | @cons first middle last step steps hstep _ ih =>
    have hmiddle := wellFormed_of_step hstep hw
    obtain ⟨-, instruction, effect, -, hyields, rfl, rfl⟩ := step_eq_ok_iff.mp hstep
    rw [Step.mem_written_cons, not_or] at hnone
    rw [ih hmiddle hnone.2, registers_perform, hyields.get_update_of_ne hw hzero hnone.1]

/-- What steps write is named by the program. -/
theorem names (h : first.Makes program steps last) (hw : first.registers.WellFormed)
    (hmem : index ∈ Step.written steps) : program.Names index := by
  obtain ⟨step, hstep, hwritten⟩ := List.mem_filterMap.mp hmem
  have hget := (h.path hw).1 step hstep
  exact ⟨step.instruction, Program.mem_of_get? hget, hwritten⟩

end Makes

end State

namespace Machine

variable {machine : Machine} {input : List Int64}

/-- A run is not refused a register if the limit is above all indices that the program names. -/
theorem Ends.ne_registerLimit {outcome : Outcome} (h : machine.Ends input outcome)
    (hnames : ∀ index, machine.program.Names index → index < max machine.config.registerLimit 1)
    (hl : max machine.config.registerLimit 1 ≤ RegisterFile.largestCapacity) (index limit : Nat) :
    outcome.result ≠ .error (.registerLimit index limit) := by
  intro hresult
  cases outcome with
  | success output trace => cases hresult
  | failure fault position trace =>
    cases hresult
    obtain ⟨state, hmakes, -, hfails | ⟨_, hlimit, -⟩⟩ := h.of_failure
    · cases hfails with
      | refused hget hmeets =>
        obtain ⟨instruction, target, hget, hwrites, rfl, rfl, hle⟩ :=
          explains_of_cause hl hmakes hget hmeets.cause
        have hwritten : instruction.written? = some target.address := by
          rcases hwrites with rfl | rfl <;> rfl
        have hlt := hnames _ ⟨instruction, Program.mem_of_get? hget, hwritten⟩
        omega
    · cases hlimit

/-- The footprint of a run is fixed by the text of its program: only the accumulator and registers
that the program names are ever written. -/
theorem footprint_of_program (machine : Machine) (input : List Int64) :
    (∀ count,
      let registers := ((machine.start input).after (.replicate count machine.program)).registers
      let written := Step.written ((machine.start input).executed machine.program count)
      (∀ index, index ≠ 0 → registers.get index ≠ 0 → machine.program.Names index) ∧
        (registers.maxWritten = 0 ∨ machine.program.Names registers.maxWritten) ∧
        registers.maxWritten = written.max?.getD 0) ∧
      ((∀ index, machine.program.Names index → index < max machine.config.registerLimit 1) →
        max machine.config.registerLimit 1 ≤ RegisterFile.largestCapacity →
        ∀ outcome, machine.Returns input outcome →
          ∀ index limit, outcome.result ≠ .error (.registerLimit index limit)) := by
  refine ⟨fun count => ?_, fun hnames hl outcome hreturns index limit => ?_⟩
  · intro registers written
    have hw := wellFormed_start machine input
    obtain ⟨last, status, hmakes, hafter⟩ :=
      (machine.start input).makes_executed machine.program count
    have hregisters : registers = last.registers := (congrArg State.registers hafter :)
    have hmax : registers.maxWritten = written.max?.getD 0 := by
      rw [hregisters, hmakes.maxWritten]
      exact Nat.zero_max _
    refine ⟨fun index hzero hvalue => ?_, ?_, hmax⟩
    · by_contra hnot
      refine hvalue ?_
      rw [hregisters, hmakes.get_of_not_written hw hzero fun hmem => hnot (hmakes.names hw hmem)]
      exact (machine.registers_start input).2 index
    · rw [hmax]
      cases hgreatest : written.max? with
      | none => exact .inl rfl
      | some greatest => exact .inr (hmakes.names hw (List.max?_mem hgreatest))
  · exact (returns_iff_ends.mp hreturns).ne_registerLimit hnames hl index limit

/-- The choice reads through an address that it computes, and names the registers 1 to 4. Its
storage grows from the accumulator alone, and the limit leaves room for no other register. -/
theorem footprint_of_program_select :
    let machine : Machine :=
      { program := Sample.program .select, config := { registerCapacity := 0, registerLimit := 5 } }
    (∀ index, machine.program.Names index → index < max machine.config.registerLimit 1) ∧
      ((machine.start [7, 8, 9, 2]).after (.replicate 5 machine.program)).registers.maxWritten = 4 ∧
      ∃ outcome, machine.run? 9 [7, 8, 9, 2] = some outcome ∧
        outcome.result ≠ .error (.registerLimit 3 5) := by
  intro machine
  have hbelow : ∀ instruction ∈ machine.program.instructions,
      ∀ index ∈ instruction.written?, index < max machine.config.registerLimit 1 := by decide
  have hnames : ∀ index, machine.program.Names index →
      index < max machine.config.registerLimit 1 := by
    rintro index ⟨instruction, hmem, hwritten⟩
    exact hbelow instruction hmem index hwritten
  have hgreatest : (Step.written
      ((machine.start [7, 8, 9, 2]).executed machine.program 5)).max?.getD 0 = 4 := by
    decide +kernel
  have hrun : (machine.run? 9 [7, 8, 9, 2]).isSome = true := by decide +kernel
  obtain ⟨outcome, houtcome⟩ := Option.isSome_iff_exists.mp hrun
  obtain ⟨hreached, hends⟩ := footprint_of_program machine [7, 8, 9, 2]
  exact ⟨hnames, (hreached 5).2.2.trans hgreatest, outcome, houtcome,
    hends hnames (by decide) outcome ⟨9, houtcome⟩ 3 5⟩

end Machine

end RandomAccess
