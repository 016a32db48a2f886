import RandomAccess.Execution.Run

/-!
# Outcomes

A run that has ended has an outcome: its output if it reached `HALT`, and else the fault and the
position at which it was met. Either way the outcome holds the trace of all steps that succeeded.
-/

namespace RandomAccess

/-- How a run ended. -/
inductive Outcome where
  /-- The run reached `HALT`. -/
  | success (output : List Int64) (trace : List Step)
  /-- The run met a fault while the program counter was at `position`. -/
  | failure (fault : Fault) (position : Nat) (trace : List Step)
  deriving Repr, Inhabited, BEq

namespace Outcome

/-- Whether the run reached `HALT`. -/
def isSuccess : Outcome → Bool
  | success _ _ => true
  | failure _ _ _ => false

/-- The steps that succeeded. -/
def trace : Outcome → List Step
  | success _ trace => trace
  | failure _ _ trace => trace

/-- The output, or the fault. -/
def result : Outcome → Except Fault (List Int64)
  | success output _ => .ok output
  | failure fault _ _ => .error fault

/-- The position of a failure. -/
def position? : Outcome → Option Nat
  | success _ _ => none
  | failure _ position _ => some position

end Outcome

/-- The outcome of a run that has ended. -/
def Run.outcome? (run : Run) : Option Outcome :=
  match run.state.status with
  | .running => none
  | .halted => some (.success run.state.output.toList run.trace.toList)
  | .faulted fault => some (.failure fault run.state.counter run.trace.toList)

/-- The outcome of a run that may take no more steps: coming to the limit while still running is
a fault. -/
def Run.outcomeAt (run : Run) (limit : Nat) : Outcome :=
  run.outcome?.getD (.failure (.stepLimitExceeded limit) run.state.counter run.trace.toList)

end RandomAccess
