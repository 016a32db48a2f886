import RandomAccess.Proofs.Execution.Running
import RandomAccess.Proofs.InPlace.Step

/-!
# Safety of runs

No operation of a run is ever out of range. Each is in range because of what the operations before
it have kept: the registers that are stored reach past the highest one written, a position from
which an instruction was fetched is no larger than the program, and no more values are read than
steps are made. Jump targets, addresses and limits may be the largest words there are. A limit of
steps also bounds the counter of the steps, so that a run under it ends in range however long it
is.
-/

namespace RandomAccess

namespace InPlace

/-- Makes steps as long as the run goes on and the machine allows them. There is no result if it
does not end in a number of turns. -/
def loop (machine : Machine) : Nat → Run → Option Run
  | 0, _ => none
  | turns + 1, run =>
      if run.state.status = .running then
        match machine.config.stepLimit.filter (· ≤ run.state.steps) with
        | some limit =>
            some { run with
              state := { run.state with status := .faulted (.stepLimitExceeded limit) } }
        | none => do
            let answer ← (step machine.program).exec run.state
            loop machine turns (run.record answer)
      else
        some run

/-- Steps of any programs stay in range in place, as long as their number is a machine word. -/
theorem stepAll_eq {state : State} {programs : List Program} (h : state.InRange)
    (hp : ∀ program ∈ programs, program.size + 1 < UInt64.size)
    (hsteps : state.steps + programs.length < UInt64.size) :
    stepAll state programs = some (state.stepAll programs) := by
  induction programs generalizing state with
  | nil => rfl
  | cons program programs ih =>
    rw [List.length_cons] at hsteps
    have hsize := hp program (List.mem_cons_self ..)
    have hcount := state.steps_step program
    have hrest := ih (h.step program) (fun later hl => hp later (List.mem_cons_of_mem _ hl))
      (by omega)
    simp only [stepAll, State.stepAll, exec_step h hsize (by omega), hrest, Option.bind_eq_bind,
      Option.bind_some]
    rfl

variable {machine : Machine} {run : Run}

/-- Under a limit the loop ends in range, with the outcome of the run. The steps that are made and
those that are left make up the limit as long as the run goes on. -/
theorem loop_eq {limit count : Nat} (hlimit : machine.config.stepLimit = some limit)
    (hword : limit < UInt64.size) (hp : machine.program.size + 1 < UInt64.size)
    (h : run.state.InRange)
    (hcount : run.state.status = .running → run.state.steps + count = limit) :
    ∃ final, loop machine (count + 1) run = some final ∧
      final.outcome? = some ((Run.advance machine.program count run).outcomeAt limit) := by
  induction count generalizing run with
  | zero =>
    by_cases hrun : run.state.status = .running
    · have hlast := hcount hrun
      have hstop : decide (limit ≤ run.state.steps) = true := decide_eq_true (by omega)
      rw [loop, if_pos hrun, hlimit, Option.filter_some, if_pos hstop]
      refine ⟨_, rfl, ?_⟩
      rw [Run.advance, Run.outcomeAt_of_running hrun]
      rfl
    · rw [loop, if_neg hrun]
      exact ⟨run, rfl, Run.outcome?_of_not_running hrun limit⟩
  | succ count ih =>
    by_cases hrun : run.state.status = .running
    · have hmore := hcount hrun
      have hallowed : ¬ decide (limit ≤ run.state.steps) = true := by
        rw [decide_eq_true_eq]
        omega
      have hstep := exec_step h hp (by omega)
      rw [loop, if_pos hrun, hlimit, Option.filter_some, if_neg hallowed]
      simp only [hstep, Option.bind_eq_bind, Option.bind_some, Run.advance, hrun, Run.step_snd]
      refine ih ?_ ?_
      · rw [Run.state_record]
        exact h.step machine.program
      · rw [Run.state_record]
        intro hstill
        rcases run.state.steps_step machine.program with hsteps | ⟨hended, _⟩
        · omega
        · exact absurd hstill hended
    · rw [loop, if_neg hrun, Run.advance_of_not_running hrun]
      exact ⟨run, rfl, Run.outcome?_of_not_running hrun limit⟩

end InPlace

namespace Machine

/-- A machine's first state is in range if its registers could be stored. -/
theorem inRange_start {machine : Machine} (input : List Int64)
    (hc : machine.config.registerCapacity ≤ RegisterFile.largestCapacity)
    (hl : machine.config.registerLimit < UInt64.size) : (machine.start input).InRange where
  wellFormed := (RegisterFile.wellFormed_withCapacity _).withLimit _
  capacity_le := by
    have hpos := RegisterFile.largestCapacity_pos
    simp only [start, State.start, RegisterFile.withLimit, RegisterFile.withCapacity,
      RegisterFile.capacity, Array.size_replicate]
    omega
  limit_lt := by
    have hone : 1 < UInt64.size := by decide
    simp only [start, State.start, RegisterFile.withLimit]
    omega
  consumed_le := Nat.le_refl 0

/-- Nothing that a run does is out of range: its steps have the results in place that they have on
values, and under a limit of steps it ends in place with its outcome. -/
theorem runs_in_range (machine : Machine) (input : List Int64)
    (hc : machine.config.registerCapacity ≤ RegisterFile.largestCapacity)
    (hl : machine.config.registerLimit < UInt64.size) :
    (∀ programs : List Program, programs.length < UInt64.size →
        (∀ program ∈ programs, program.size + 1 < UInt64.size) →
        InPlace.stepAll (machine.start input) programs =
          some ((machine.start input).stepAll programs)) ∧
      ∀ limit, machine.config.stepLimit = some limit → limit < UInt64.size →
        machine.program.size + 1 < UInt64.size →
        ∃ run, InPlace.loop machine (limit + 1) (.start (machine.start input)) = some run ∧
          run.outcome? = some (machine.runFor limit input) := by
  have h := inRange_start input hc hl
  constructor
  · intro programs hlength hp
    exact InPlace.stepAll_eq h hp ((Nat.zero_add _).symm ▸ hlength)
  · intro limit hlimit hword hp
    exact InPlace.loop_eq hlimit hword hp h fun _ => Nat.zero_add limit

/-- The largest words as a jump target, as the limits and, but for one, as the address of a write
leave nothing out of range. -/
theorem runs_in_range_largest_words :
    let program := Program.ofList [.branch .zero 18446744073709551615]
    let other := Program.ofList [.read (.direct 18446744073709551614)]
    let machine : Machine := ⟨program, some 18446744073709551615, 0, 18446744073709551615⟩
    (InPlace.stepAll (machine.start [7]) [other, program, program]).isSome = true ∧
      ∃ run, InPlace.loop machine 18446744073709551616 (.start (machine.start [7])) = some run ∧
        run.outcome?.map Outcome.result =
          some (.error (.invalidProgramCounter 18446744073709551615 1)) := by
  intro program other machine
  obtain ⟨hsteps, hrun⟩ := runs_in_range machine [7] (Nat.zero_le _) (by decide)
  constructor
  · rw [hsteps [other, program, program] (by decide) (by decide)]
    rfl
  · obtain ⟨run, hloop, houtcome⟩ := hrun 18446744073709551615 rfl (by decide) (by decide)
    refine ⟨run, hloop, ?_⟩
    rw [houtcome]
    rfl

end Machine

end RandomAccess
