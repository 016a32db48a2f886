import RandomAccess.Proofs.Execution.ControlFlow
import RandomAccess.Proofs.Trace.Path

/-!
# Forward programs

A program is forward if all its jumps lead to later positions. Each step of such a program leaves
fewer positions ahead of the program counter, or ends the run. So no run goes on for more steps than
the program has instructions, whether or not a limit is set.
-/

namespace RandomAccess

namespace Program

/-- Every jump leads to a position after its own. -/
def Forward (program : Program) : Prop :=
  ∀ position instruction, program.get? position = some instruction →
    ∀ target ∈ instruction.destination?, position < target.toNat

/-- Whether a program is forward is seen from its entries. -/
theorem forward_iff {program : Program} :
    program.Forward ↔ ∀ entry ∈ program.entries,
      entry.2.destination?.all fun target => entry.1 < target.toNat := by
  simp only [Forward, Prod.forall, mem_entries_iff, Option.all_eq_true, decide_eq_true_eq,
    Option.mem_def]

instance : DecidablePred Forward := fun _ => decidable_of_iff _ forward_iff.symm

example : (Sample.program .abs).Forward ∧ ¬ (Sample.program .sum).Forward := by decide

end Program

namespace State

variable {program : Program} {first middle last : State} {step : Step} {steps : List Step}

/-- The number of positions of the program that a run has ahead of it, with its own. A run that has
ended has none. -/
def ahead (program : Program) (state : State) : Nat :=
  match state.status with
  | .running => program.size + 1 - state.counter
  | .halted | .faulted _ => 0

theorem ahead_of_running (h : last.status = .running) :
    last.ahead program = program.size + 1 - last.counter := by
  rw [ahead, h]

theorem ahead_of_not_running (h : last.status ≠ .running) : last.ahead program = 0 := by
  unfold ahead
  split
  · contradiction
  · rfl
  · rfl

/-- A step of a forward program moves the counter ahead, unless it ends the run. -/
theorem counter_lt_of_step (hforward : program.Forward)
    (h : first.step program = (.ok step, middle)) (hrun : middle.status = .running) :
    first.counter < middle.counter := by
  obtain ⟨-, instruction, effect, hget, hyields, rfl, -⟩ := step_eq_ok_iff.mp h
  rcases hyields.counter_cases with ⟨rfl, -⟩ | ⟨target, htarget, hgoes⟩ | ⟨-, -, hnext⟩
  · cases hyields
    cases hrun
  · rw [hgoes]
    exact hforward _ _ hget target htarget
  · omega

/-- A step of a forward program has less ahead of it than the one before. -/
theorem ahead_lt_of_step (hforward : program.Forward)
    (h : first.step program = (.ok step, middle)) :
    middle.ahead program < first.ahead program := by
  obtain ⟨hposition, hget⟩ := recorded_of_step h
  have hinside := (Program.le_size_of_get? hget).2
  rw [ahead_of_running (step_eq_ok_iff.mp h).1]
  by_cases hrun : middle.status = .running
  · have hlt := counter_lt_of_step hforward h hrun
    rw [ahead_of_running hrun]
    omega
  · rw [ahead_of_not_running hrun]
    omega

namespace Makes

/-- A forward program is left with what it had ahead of it, less a position for each step. -/
theorem length_add_ahead_le (hforward : program.Forward) (h : first.Makes program steps last) :
    steps.length + last.ahead program ≤ first.ahead program := by
  induction h with
  | nil => simp
  | cons hstep _ ih =>
    have hlt := ahead_lt_of_step hforward hstep
    rw [List.length_cons]
    omega

/-- The steps of a forward program go through ascending positions. None of them comes before the
counter of the first state, and that of the last state comes after them all if the run goes on. -/
theorem ascending (hforward : program.Forward) (h : first.Makes program steps last) :
    (∀ step ∈ steps, first.counter ≤ step.position) ∧
      (steps.map Step.position).Pairwise (· < ·) ∧
      (last.status = .running → first.counter ≤ last.counter ∧
        ∀ step ∈ steps, step.position < last.counter) := by
  induction h with
  | nil => simp
  | @cons first middle last step steps hstep hrest ih =>
    have hposition := (recorded_of_step hstep).1
    by_cases hrun : middle.status = .running
    · have hlt := counter_lt_of_step hforward hstep hrun
      obtain ⟨hfrom, hpairs, hbefore⟩ := ih
      have hlater : ∀ later ∈ steps, step.position < later.position := fun later hmem =>
        hposition ▸ Nat.lt_of_lt_of_le hlt (hfrom later hmem)
      refine ⟨List.forall_mem_cons.mpr ⟨Nat.le_of_eq hposition.symm, fun later hmem => ?_⟩,
        List.pairwise_cons.mpr ⟨List.forall_mem_map.mpr hlater, hpairs⟩, fun hlast => ?_⟩
      · exact Nat.le_of_lt (hposition ▸ hlater later hmem)
      · obtain ⟨hle, hbehind⟩ := hbefore hlast
        have hpast := Nat.lt_of_lt_of_le hlt hle
        exact ⟨Nat.le_of_lt hpast, List.forall_mem_cons.mpr ⟨hposition ▸ hpast, hbehind⟩⟩
    · -- only `HALT` gets here, and nothing is made after it
      obtain ⟨rfl, rfl⟩ := hrest.eq_of_not_running hrun
      simp [hposition, hrun]

end Makes

end State

namespace Machine

variable {machine : Machine} {input : List Int64}

/-- A run of a forward program has all positions of it ahead. -/
theorem ahead_start (machine : Machine) (input : List Int64) :
    (machine.start input).ahead machine.program = machine.program.size :=
  Nat.add_sub_cancel _ 1

/-- A run of a forward program that cannot lose its counter makes fewer steps than the program has
instructions as long as it goes on. -/
theorem length_lt_of_forward (machine : Machine) (hforward : machine.program.Forward)
    (hclosed : machine.program.Closed) {steps : List Step} {state : State}
    (hmakes : (machine.start input).Makes machine.program steps state)
    (hrun : state.status = .running) : steps.length < machine.program.size := by
  have hinside := ((inside_start hclosed input).stepAll hclosed steps.length).1.counter
  rw [hmakes.after] at hinside
  have hle := hmakes.length_add_ahead_le hforward
  rw [ahead_start, State.ahead_of_running hrun] at hle
  omega

/-- Forward programs terminate: on every input and with all settings a run of theirs returns, after
ascending positions and no more steps than there are instructions. -/
theorem forward_terminates (hforward : machine.program.Forward) (input : List Int64) :
    ∃ outcome, (∀ found, machine.Returns input found ↔ found = outcome) ∧
      (outcome.trace.map Step.position).Pairwise (· < ·) ∧
      (∀ position ∈ outcome.position?, ∀ step ∈ outcome.trace, step.position < position) ∧
      outcome.trace.length ≤ machine.program.size := by
  have hbound {steps : List Step} {state : State}
      (hmakes : (machine.start input).Makes machine.program steps state) :
      steps.length ≤ machine.program.size := by
    have hle := hmakes.length_add_ahead_le hforward
    rw [ahead_start] at hle
    omega
  obtain ⟨outcome, hreturns⟩ := exists_returns_of_makes_le machine.program.size hbound
  have hends := returns_iff_ends.mp hreturns
  obtain ⟨state, hmakes, hcases⟩ := hends.makes
  obtain ⟨-, hpairs, hbefore⟩ := hmakes.ascending hforward
  refine ⟨outcome, hends.returns_iff, hpairs, fun position hposition => ?_, hbound hmakes⟩
  rcases hcases with ⟨-, hsuccess⟩ | ⟨hrun, fault, hfailure⟩
  · rw [hsuccess] at hposition
    cases hposition
  · rw [hfailure] at hposition
    cases hposition
    exact (hbefore hrun).2

/-- A branch that leaps over an instruction, and a jump to a position that is none of the program's:
the run has made three of four steps when it loses its counter there. -/
theorem forward_terminates_outside :
    let machine : Machine :=
      { program := .ofList
          [.read (.direct 0), .branch .zero 4, .write (.literal 1), .jump 9] }
    ∃ outcome, outcome.positions = [1, 2, 4, 9] ∧
      (∀ found, machine.Returns [0] found ↔ found = outcome) ∧
      (outcome.trace.map Step.position).Pairwise (· < ·) ∧ outcome.trace.length ≤ 4 := by
  intro machine
  obtain ⟨outcome, honly, hpairs, -, hlength⟩ :=
    @forward_terminates machine (by decide +kernel) [0]
  have hrun : (machine.run? 4 [0]).map Outcome.positions = some [1, 2, 4, 9] := by decide +kernel
  obtain ⟨found, hfound, hpositions⟩ := Option.map_eq_some_iff.mp hrun
  obtain rfl := (honly found).mp ⟨4, hfound⟩
  exact ⟨found, hpositions, honly, hpairs, hlength⟩

end Machine

end RandomAccess
