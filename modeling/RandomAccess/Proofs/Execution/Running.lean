import RandomAccess.Proofs.Execution.Stepping

/-!
# Running

A run grows by the steps that succeed and stays as it is once it has ended. Its outcome then does
not depend on any limit, and a limit that it comes to while it still goes on is its outcome.
-/

namespace RandomAccess

namespace Run

variable {run : Run}

/-- The run after an answer: a step is recorded, a fault is not. -/
def record (run : Run) : Except Fault Step × State → Run
  | (.ok step, state) => ⟨state, run.trace.push step⟩
  | (.error _, state) => ⟨state, run.trace⟩

@[simp] theorem state_record (run : Run) (answer : Except Fault Step × State) :
    (run.record answer).state = answer.2 := by
  obtain ⟨_ | _, state⟩ := answer <;> rfl

theorem step_snd (run : Run) (program : Program) :
    (run.step program).2 = run.record (run.state.step program) := by
  unfold step record
  split <;> simp_all

/-- A run that has ended is not carried on. -/
theorem advance_of_not_running (h : run.state.status ≠ .running)
    (program : Program) (count : Nat) : advance program count run = run := by
  cases count with
  | zero => rfl
  | succ count =>
    unfold advance
    split
    · contradiction
    · rfl
    · rfl

/-- The outcome of a run that has ended does not depend on a limit. -/
theorem outcome?_of_not_running (h : run.state.status ≠ .running) (limit : Nat) :
    run.outcome? = some (run.outcomeAt limit) := by
  unfold outcomeAt outcome?
  split
  · contradiction
  · rfl
  · rfl

/-- A run that still goes on at its limit fails there. -/
theorem outcomeAt_of_running (h : run.state.status = .running) (limit : Nat) :
    run.outcomeAt limit =
      .failure (.stepLimitExceeded limit) run.state.counter run.trace.toList := by
  simp only [outcomeAt, outcome?, h, Option.getD_none]

/-- The outcome of a run has the steps that the run has recorded. -/
theorem trace_of_outcome? {outcome : Outcome} (h : run.outcome? = some outcome) :
    outcome.trace = run.trace.toList := by
  unfold outcome? at h
  split at h
  · cases h
  · cases h
    rfl
  · cases h
    rfl

end Run

end RandomAccess
