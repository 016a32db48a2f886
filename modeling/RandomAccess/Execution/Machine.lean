import RandomAccess.Execution.Outcome

/-!
# Machines

A machine is a program with its settings. It runs for as many steps as its limit allows. Without
a limit a run need not end, so `run?` is told after how many steps to give up; once it has an
outcome, more steps do not change it.
-/

namespace RandomAccess

/-- The settings of a machine. -/
structure Config where
  /-- The number of steps after which a run fails. -/
  stepLimit : Option Nat := none
  /-- The number of registers stored before the first write. -/
  registerCapacity : Nat := RegisterFile.defaultCapacity
  /-- The number of registers that may be written. -/
  registerLimit : Nat := RegisterFile.defaultLimit
  deriving DecidableEq, Repr, Inhabited

/-- A program with its settings. -/
structure Machine where
  /-- The program that is run. -/
  program : Program
  /-- Its settings; the default ones set no limit of steps. -/
  config : Config := {}
  deriving DecidableEq, Repr, Inhabited

namespace Machine

/-- The state before the first step on an input. -/
def start (machine : Machine) (input : List Int64) : State :=
  .start input <|
    (RegisterFile.withCapacity machine.config.registerCapacity).withLimit
      machine.config.registerLimit

/-- The run on an input after `count` steps, or after its last one. -/
def runTo (machine : Machine) (count : Nat) (input : List Int64) : Run :=
  .advance machine.program count (.start (machine.start input))

/-- The outcome under a limit of steps, whatever the settings say about it. -/
def runFor (machine : Machine) (limit : Nat) (input : List Int64) : Outcome :=
  (machine.runTo limit input).outcomeAt limit

/-- The outcome under the machine's own limit, if it takes no more than `fuel` steps. -/
def run? (machine : Machine) (fuel : Nat) (input : List Int64) : Option Outcome :=
  match machine.config.stepLimit with
  | some limit =>
      if limit ≤ fuel then
        some (machine.runFor limit input)
      else
        (machine.runTo fuel input).outcome?
  | none => (machine.runTo fuel input).outcome?

end Machine

end RandomAccess
