import RandomAccess.Execution.State

/-!
# Runs

A run is a state together with the steps that led to it. It is carried on for a number of steps,
or until it ends on its own.
-/

namespace RandomAccess

/-- A state and the steps made so far. -/
structure Run where
  /-- The state after these steps. -/
  state : State
  /-- The steps in the order in which they were made. -/
  trace : Array Step
  deriving Repr, Inhabited

namespace Run

/-- The run that has made no step. -/
def start (state : State) : Run :=
  ⟨state, #[]⟩

/-- Makes a step, and records it if it succeeds. -/
def step (run : Run) (program : Program) : Except Fault Step × Run :=
  let trace := run.trace
  match run.state.step program with
  | (.ok step, state) => (.ok step, ⟨state, trace.push step⟩)
  | (.error fault, state) => (.error fault, ⟨state, trace⟩)

/-- Makes steps until `count` of them were made or the run ends. -/
def advance (program : Program) : Nat → Run → Run
  | 0, run => run
  | count + 1, run =>
      match run.state.status with
      | .running => advance program count (run.step program).2
      | .halted | .faulted _ => run

/-- The number of steps that were tried between two moments of a run: those recorded, and one
more if the last of them failed. -/
def attempts (before after : Run) : Nat :=
  let recorded := after.trace.size - before.trace.size
  match before.state.status, after.state.status with
  | .running, .faulted _ => recorded + 1
  | _, _ => recorded

end Run

end RandomAccess
