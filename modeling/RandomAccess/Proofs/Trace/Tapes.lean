import Mathlib.Data.List.Basic
import RandomAccess.Proofs.Execution.Causes
import RandomAccess.Proofs.Execution.Returning
import RandomAccess.Proofs.Memory.Equality

/-!
# The tapes of a trace

A trace tells both tapes. Its steps record nothing but the registers that they leave, and these
still hold the value that a read has taken and give the value that a write has sent. Along a run
the values taken are the input from its beginning on, without a gap, and what is not taken stays
on the tape; the values sent are the output.
-/

namespace RandomAccess

namespace Step

/-- The value that a step has taken from the input, as its own registers tell it. -/
def received? (step : Step) : Option Int64 :=
  match step.instruction with
  | .read target => some (step.registers.get target.address)
  | .load _ | .store _ | .arith _ _ | .jump _ | .branch _ _ | .write _ | .halt => none

/-- What a step has sent to the output, resolved again on its own registers. -/
def sent? (step : Step) : Option (Except Fault Int64) :=
  match step.instruction with
  | .write operand => some (operand.resolve step.registers)
  | .load _ | .store _ | .arith _ _ | .jump _ | .branch _ _ | .read _ | .halt => none

end Step

namespace State

variable {program : Program} {state first last after : State} {step : Step} {steps : List Step}

/-- A step takes from the input and sends to the output what its record tells, and nothing else. -/
theorem tapes_of_step (hstep : state.step program = (.ok step, after))
    (hw : state.registers.WellFormed) :
    state.input = step.received?.toList ++ after.input ∧
      after.consumed = state.consumed + step.received?.toList.length ∧
      ∃ written : List Int64, after.output.toList = state.output.toList ++ written ∧
        step.sent?.toList = written.map .ok := by
  obtain ⟨-, instruction, effect, -, hyields, rfl, rfl⟩ := step_eq_ok_iff.mp hstep
  cases hyields with
  | load | store | arith | jump | taken | untaken | halt =>
    exact ⟨rfl, rfl, [], (List.append_nil _).symm, rfl⟩
  | @read target value rest hinput hadmits =>
    have hlimit := RegisterFile.lt_limit_of_admits hadmits
    have hvalue : (state.registers.write target.address value).snapshot.get target.address =
        value := by
      rw [(hw.write value hlimit).get_snapshot,
        RegisterFile.get_write_self value hw.capacity_pos hlimit]
    have hreceived : Step.received? ⟨state.counter, .read target,
        (state.registers.write target.address value).snapshot⟩ = some value :=
      congrArg some hvalue
    refine ⟨?_, ?_, [], (List.append_nil _).symm, rfl⟩
    · rw [registers_perform, Effect.update, hreceived, perform, hinput]
      rfl
    · rw [registers_perform, Effect.update, hreceived]
      rfl
  | @write operand value hvalue =>
    refine ⟨rfl, rfl, [value], Array.toList_push, ?_⟩
    have hsent : Step.sent? ⟨state.counter, .write operand, state.registers.snapshot⟩ =
        some (.ok value) :=
      congrArg some ((operand.resolve_congr hw.get_snapshot).trans hvalue)
    rw [registers_perform, Effect.update, hsent]
    rfl

/-- Steps that are made take from the input and send to the output what their records tell. -/
theorem Makes.tapes (h : first.Makes program steps last) (hw : first.registers.WellFormed) :
    first.input = steps.filterMap Step.received? ++ last.input ∧
      last.consumed = first.consumed + (steps.filterMap Step.received?).length ∧
      ∃ written : List Int64, last.output.toList = first.output.toList ++ written ∧
        steps.filterMap Step.sent? = written.map .ok := by
  simp only [List.filterMap_eq_flatMap_toList]
  induction h with
  | nil => exact ⟨rfl, rfl, [], (List.append_nil _).symm, rfl⟩
  | @cons first middle last step steps hstep _ ih =>
    obtain ⟨hinput, hconsumed, written, houtput, hsent⟩ := tapes_of_step hstep hw
    obtain ⟨hinputs, hconsumes, more, houtputs, hsends⟩ :=
      ih (wellFormed_of_step hstep hw)
    simp only [List.flatMap_cons]
    refine ⟨?_, ?_, written ++ more, ?_, ?_⟩
    · rw [hinput, hinputs, List.append_assoc]
    · rw [hconsumes, hconsumed, List.length_append, Nat.add_assoc]
    · rw [houtputs, houtput, List.append_assoc]
    · rw [hsent, hsends, List.map_append]

end State

namespace Machine

variable {machine : Machine} {input : List Int64} {outcome : Outcome}

/-- The loop takes from the input what the steps that it records tell, and leaves the rest. -/
theorem Loops.input_eq {final : Run} (h : machine.Loops (.start (machine.start input)) final) :
    input = final.trace.toList.filterMap Step.received? ++ final.state.input := by
  obtain ⟨steps, state, status, hmakes, rfl⟩ := h.makes
  simp only [Run.start, Array.empty_append]
  exact (hmakes.tapes (wellFormed_start machine input)).1

/-- A run that succeeds has sent its output. -/
theorem Ends.sent_eq {output : List Int64} (h : machine.Ends input outcome)
    (hresult : outcome.result = .ok output) :
    outcome.trace.filterMap Step.sent? = output.map .ok := by
  cases h with
  | faulted | stopped => cases hresult
  | halted hmakes _ _ =>
    cases hresult
    obtain ⟨-, -, written, houtput, hsent⟩ := hmakes.tapes (wellFormed_start machine input)
    rw [houtput]
    exact hsent

/-- A run that exhausts the input has received all of it, as many values as the fault tells. -/
theorem Ends.of_inputExhausted {consumed : Nat} (h : machine.Ends input outcome)
    (hresult : outcome.result = .error (.inputExhausted consumed)) :
    outcome.trace.filterMap Step.received? = input ∧ consumed = input.length := by
  cases h with
  | halted | stopped => cases hresult
  | faulted hmakes hrun hfault _ =>
    cases hresult
    obtain ⟨hempty, rfl⟩ := (State.step_of_fault hrun hfault).1.of_inputExhausted
    obtain ⟨hinput, hconsumed, -⟩ := hmakes.tapes (wellFormed_start machine input)
    rw [hempty, List.append_nil] at hinput
    rw [← hinput, start, State.start, Nat.zero_add] at hconsumed
    exact ⟨hinput.symm, hconsumed⟩

/-- Both tapes can be rebuilt from the trace of a run: its reads have received the first of the
input in order, and the writes of a success resolve to its output. -/
theorem tapes_of_trace {fuel : Nat} (h : machine.run? fuel input = some outcome) :
    let received := outcome.trace.filterMap Step.received?
    received = input.take received.length ∧
      (∀ output, outcome.result = .ok output →
        outcome.trace.filterMap Step.sent? = output.map .ok) ∧
      (∃ final, (∀ other, machine.Loops (.start (machine.start input)) other ↔ other = final) ∧
        final.outcome? = some outcome ∧ final.state.input = input.drop received.length) ∧
      ∀ consumed, outcome.result = .error (.inputExhausted consumed) →
        consumed = received.length ∧ received.length = input.length := by
  intro received
  obtain ⟨final, hloops, houtcome⟩ := returns_iff_loops.mp ⟨fuel, h⟩
  have hends := returns_iff_ends.mp ⟨fuel, h⟩
  have hreceived : received = final.trace.toList.filterMap Step.received? :=
    congrArg _ (Run.trace_of_outcome? houtcome)
  have hinput : input = received ++ final.state.input := by
    rw [hreceived]
    exact hloops.input_eq
  refine ⟨?_, fun output => hends.sent_eq, ?_, fun consumed hresult => ?_⟩
  · conv_rhs => rw [hinput, List.take_left]
  · refine ⟨final, fun other => ⟨hloops.unique, fun he => he ▸ hloops⟩, houtcome, ?_⟩
    conv_rhs => rw [hinput, List.drop_left]
  · obtain ⟨hall, hconsumed⟩ := hends.of_inputExhausted hresult
    have hlength : received.length = input.length := congrArg List.length hall
    exact ⟨hconsumed.trans hlength.symm, hlength⟩

/-- A read past the storage is as visible in the trace as any other. The third input value stays on
the tape. -/
theorem tapes_of_trace_growth :
    let program := Program.ofList [.read (.direct 1), .read (.direct 20), .write (.indirect 1),
      .write (.literal 3), .halt]
    let machine : Machine := { program }
    ∃ outcome, machine.run? 5 [20, 7, 9] = some outcome ∧ outcome.result = .ok [7, 3] ∧
      outcome.trace.filterMap Step.received? = [20, 7] ∧
      outcome.trace.filterMap Step.sent? = [.ok 7, .ok 3] ∧
      ∃ final, machine.Loops (.start (machine.start [20, 7, 9])) final ∧
        final.state.input = [9] := by
  intro program machine
  have hrun : (machine.run? 5 [20, 7, 9]).map (fun outcome =>
      (outcome.result, (outcome.trace.filterMap Step.received?).length)) =
        some (.ok [7, 3], 2) := by decide +kernel
  obtain ⟨outcome, houtcome, hview⟩ := Option.map_eq_some_iff.mp hrun
  obtain ⟨hresult, hlength⟩ := Prod.mk.inj hview
  obtain ⟨hreceived, hsent, ⟨final, hloops, -, hrest⟩, -⟩ := tapes_of_trace houtcome
  rw [hlength] at hreceived hrest
  exact ⟨outcome, houtcome, hresult, hreceived, hsent _ hresult, final, (hloops final).mpr rfl,
    hrest⟩

end Machine

end RandomAccess
