import RandomAccess.Proofs.Execution.Forward
import RandomAccess.Proofs.Execution.Truncation
import RandomAccess.Proofs.Samples.Sum

/-!
# Bounds of the samples

Without a limit of steps a sample is run for as many steps as its bound allows, which is told by the
length of the input. That is no limit of its own: by then the run has ended on every input. Two of
the samples are forward programs and end within their size, and the sum ends within its turns.
-/

namespace RandomAccess.Sample

variable {input : List Int64}

/-- As long as a sample runs it has made fewer steps than its bound. -/
theorem length_lt_stepBound (sample : Sample) {steps : List Step} {state : State} :
    let machine : Machine := { program := sample.program }
    (machine.start input).Makes machine.program steps state → state.status = .running →
      steps.length < sample.stepBound input.length := by
  intro machine hmakes hrun
  cases sample with
  | abs =>
    have hforward : machine.program.Forward := by decide
    exact machine.length_lt_of_forward hforward (closed .abs) hmakes hrun
  | sum =>
    obtain ⟨outcome, hends, hlength⟩ := Summation.exists_ends_within input
    have hle := (hends.isPrefix_trace hmakes (by simp)).length_le
    exact Nat.lt_of_le_of_lt hle hlength
  | select =>
    have hforward : machine.program.Forward := by decide
    exact machine.length_lt_of_forward hforward (closed .select) hmakes hrun

/-- A sample has one outcome under every limit of steps and under none, where its bound takes the
place of the limit. -/
theorem returns_iff_runFor (sample : Sample) (limit : Option Nat) (input : List Int64)
    (outcome : Outcome) :
    let machine : Machine := { program := sample.program, config.stepLimit := limit }
    machine.Returns input outcome ↔
      outcome = machine.runFor (limit.getD (sample.stepBound input.length)) input := by
  intro machine
  have hreturns : machine.Returns input
      (machine.runFor (limit.getD (sample.stepBound input.length)) input) := by
    cases limit with
    | some limit => exact Machine.returns_runFor rfl
    | none => exact Machine.returns_of_makes_lt _ rfl sample.length_lt_stepBound
  exact ⟨fun h => h.unique hreturns, fun h => h ▸ hreturns⟩

end RandomAccess.Sample
