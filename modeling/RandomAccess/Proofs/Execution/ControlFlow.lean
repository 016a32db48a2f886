import RandomAccess.Program.Sample
import RandomAccess.Proofs.Execution.Causes
import RandomAccess.Proofs.Execution.Returning

/-!
# Control flow

An instruction sends the run to its destination, or on to the next position. A program is closed if
all destinations are positions of its own and nothing goes on past its last instruction. The program
counter of such a program is never lost, neither in its runs nor by any number of steps that are
asked for by hand.
-/

namespace RandomAccess

/-- Where an instruction can send the run, apart from the next position. -/
def Instruction.destination? : Instruction → Option UInt64
  | .jump target | .branch _ target => some target
  | .load _ | .store _ | .arith _ _ | .read _ | .write _ | .halt => none

/-- A program that no run leaves. -/
structure Program.Closed (program : Program) : Prop where
  /-- Every destination is a position of the program. -/
  inside : ∀ instruction ∈ program.instructions, ∀ target ∈ instruction.destination?,
    1 ≤ target.toNat ∧ target.toNat ≤ program.size
  /-- The last instruction is `HALT` or a jump that is always taken; so there is one. -/
  ends : ∃ last, program.get? program.size = some last ∧
    (last = .halt ∨ ∃ target, last = .jump target)

/-- The programs at hand are closed. -/
theorem Sample.closed (sample : Sample) : sample.program.Closed where
  inside := by
    -- looked through as a test, since all positions there are would be too many to try
    have htest : ∀ instruction ∈ sample.program.instructions,
        instruction.destination?.all fun target =>
          1 ≤ target.toNat ∧ target.toNat ≤ sample.program.size := by
      cases sample with
      | abs | sum | select => decide
    intro instruction hmem target htarget
    have hpassed := htest instruction hmem
    rw [Option.mem_def.mp htarget, Option.all_some] at hpassed
    exact of_decide_eq_true hpassed
  ends := by
    cases sample with
    | abs | sum | select => exact ⟨.halt, rfl, .inl rfl⟩

namespace State

variable {state : State} {program : Program} {instruction : Instruction} {effect : Effect}

/-- The run stays at a `HALT`, goes to the destination of a jump, or goes on at the next position.
An unconditional jump never does the last. -/
theorem Yields.counter_cases (h : state.Yields instruction effect) :
    (instruction = .halt ∧ (state.perform effect).counter = state.counter) ∨
      (∃ target ∈ instruction.destination?, (state.perform effect).counter = target.toNat) ∨
      (instruction ≠ .halt ∧ (∀ target, instruction ≠ .jump target) ∧
        (state.perform effect).counter = state.counter + 1) := by
  cases h with
  | load | store | arith | read | write | untaken => exact .inr (.inr ⟨nofun, nofun, rfl⟩)
  | jump | taken => exact .inr (.inl ⟨_, rfl, rfl⟩)
  | halt => exact .inl ⟨rfl, rfl⟩

/-- An effect of a closed program leaves the counter at one of its positions. -/
theorem Yields.counter_of_closed (h : state.Yields instruction effect) (hclosed : program.Closed)
    (hget : program.get? state.counter = some instruction) :
    1 ≤ (state.perform effect).counter ∧ (state.perform effect).counter ≤ program.size := by
  obtain ⟨hpos, hle⟩ := Program.le_size_of_get? hget
  rcases h.counter_cases with ⟨-, hstays⟩ | ⟨target, htarget, hgoes⟩ | ⟨hhalt, hjump, hnext⟩
  · rw [hstays]
    exact ⟨hpos, hle⟩
  · rw [hgoes]
    exact hclosed.inside instruction (Program.mem_of_get? hget) target htarget
  · -- an instruction that lets the run go on is not the last one
    have hlast : state.counter ≠ program.size := by
      intro hsize
      obtain ⟨last, hends, hstops⟩ := hclosed.ends
      obtain rfl := Option.some.inj (hget.symm.trans (hsize ▸ hends))
      rcases hstops with rfl | ⟨target, rfl⟩
      · exact hhalt rfl
      · exact hjump target rfl
    omega

/-- The counter is at a position of the program, and was so whenever a step was made. -/
structure Inside (program : Program) (state : State) : Prop where
  /-- The counter is at a position of the program. -/
  counter : 1 ≤ state.counter ∧ state.counter ≤ program.size
  /-- The run has not ended by losing the counter. -/
  status : ∀ position size, state.status ≠ .faulted (.invalidProgramCounter position size)

namespace Inside

/-- A step of a closed program does not lose the counter. -/
theorem step (h : state.Inside program) (hclosed : program.Closed) :
    (state.step program).2.Inside program ∧
      ∀ position size, (state.step program).1 ≠ .error (.invalidProgramCounter position size) := by
  by_cases hrun : state.status = .running
  · rcases state.step_cases program with ⟨instruction, effect, hget, hyields⟩ | ⟨fault, hfails⟩
    · rw [step_of_yields hrun hget hyields]
      refine ⟨⟨hyields.counter_of_closed hclosed hget, fun position size hlost => ?_⟩, nofun⟩
      rcases status_perform hrun effect with hstill | hhalted
      · rw [hstill] at hlost
        cases hlost
      · rw [hhalted] at hlost
        cases hlost
    · have hfault : ∀ position size, fault ≠ .invalidProgramCounter position size := by
        rintro position size rfl
        have houtside := Program.get?_eq_none_iff.mp hfails.of_invalidProgramCounter
        have hinside := h.counter
        omega
      rw [step_of_fails hrun hfails]
      refine ⟨⟨h.counter, fun position size hlost => ?_⟩, fun position size hlost => ?_⟩
      · exact hfault position size (Status.faulted.inj hlost)
      · exact hfault position size (Except.error.inj hlost)
  · rw [step_of_not_running program hrun]
    exact ⟨h, nofun⟩

/-- No number of steps of a closed program loses the counter. -/
theorem stepAll (h : state.Inside program) (hclosed : program.Closed) (count : Nat) :
    (state.after (.replicate count program)).Inside program ∧
      ∀ position size, .error (.invalidProgramCounter position size) ∉
        (state.stepAll (.replicate count program)).1 := by
  induction count generalizing state with
  | zero => exact ⟨h, fun _ _ => List.not_mem_nil⟩
  | succ count ih =>
    obtain ⟨hafter, hanswer⟩ := h.step hclosed
    obtain ⟨hlater, hanswers⟩ := ih hafter
    refine ⟨hlater, fun position size hlost => ?_⟩
    rcases List.mem_cons.mp hlost with hfirst | hrest
    · exact hanswer position size hfirst.symm
    · exact hanswers position size hrest

end Inside

end State

namespace Machine

variable {machine : Machine}

/-- A machine with a closed program starts at a position of it. -/
theorem inside_start (hclosed : machine.program.Closed) (input : List Int64) :
    (machine.start input).Inside machine.program where
  counter := by
    obtain ⟨last, hends, -⟩ := hclosed.ends
    exact ⟨Nat.le_refl 1, (Program.le_size_of_get? hends).1⟩
  status := nofun

/-- A closed program never loses the program counter: after any number of steps, on every input and
with all settings, it is at a position of the program. -/
theorem closed_keeps_counter (hclosed : machine.program.Closed) (input : List Int64) :
    (∀ count,
      let state := (machine.start input).after (.replicate count machine.program)
      (1 ≤ state.counter ∧ state.counter ≤ machine.program.size) ∧
        ∀ position size, state.status ≠ .faulted (.invalidProgramCounter position size) ∧
          .error (.invalidProgramCounter position size) ∉
            ((machine.start input).stepAll (.replicate count machine.program)).1) ∧
      ∀ outcome, machine.Returns input outcome → ∀ position size,
        outcome.result ≠ .error (.invalidProgramCounter position size) := by
  have hstart := inside_start hclosed input
  refine ⟨fun count => ?_, fun outcome hreturns position size hresult => ?_⟩
  · obtain ⟨hinside, hanswers⟩ := hstart.stepAll hclosed count
    exact ⟨hinside.counter, fun position size =>
      ⟨hinside.status position size, hanswers position size⟩⟩
  · cases outcome with
    | success output trace => cases hresult
    | failure fault found trace =>
      cases hresult
      obtain ⟨state, hmakes, -, hfails | ⟨_, hlimit, -⟩⟩ :=
        (returns_iff_ends.mp hreturns).of_failure
      · -- the steps of the trace could have been asked for by hand
        have hinside := (hstart.stepAll hclosed trace.length).1.counter
        rw [hmakes.after] at hinside
        have houtside := Program.get?_eq_none_iff.mp hfails.of_invalidProgramCounter
        omega
      · cases hlimit

/-- The sum jumps back after each value. Asked for a hundred steps on a tape without a 0, it runs
out of input, and keeps its counter. -/
theorem closed_keeps_counter_sum :
    let machine : Machine := { program := Sample.program .sum }
    let state := (machine.start [3, -4]).after (.replicate 100 machine.program)
    machine.program.Closed ∧ (1 ≤ state.counter ∧ state.counter ≤ 8) ∧
      state.status ≠ .faulted (.invalidProgramCounter 9 8) := by
  intro machine state
  have hclosed : machine.program.Closed := Sample.closed .sum
  obtain ⟨hcounter, hkept⟩ := (closed_keeps_counter hclosed [3, -4]).1 100
  exact ⟨hclosed, hcounter, (hkept 9 8).1⟩

end Machine

end RandomAccess
