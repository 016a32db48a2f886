import RandomAccess.CommandLine.Usage
import RandomAccess.Cost.Report
import RandomAccess.Execution.Machine
import RandomAccess.Log.Record

/-!
# What a command line does

The transcript of a command line holds all that it says, with its records of every level, and
does not depend on the environment. The environment only chooses which records are written and
how they look.
-/

namespace RandomAccess.CommandLine

/-- Something that is said on the error stream. -/
inductive Event where
  /-- A line that is always written, and never coloured. -/
  | line (text : String)
  /-- A log record. -/
  | record (record : Log.Record)
  deriving DecidableEq, Repr, Inhabited

/-- All that a command line says, and its exit code. -/
structure Transcript where
  /-- What is said on the error stream, in order. -/
  events : List Event
  /-- The text of the output stream. -/
  output : String
  /-- Zero after a run that succeeds and after help, 2 after a run that fails, and else 1. -/
  exitCode : Nat
  deriving DecidableEq, Repr, Inhabited

/-- The transcript of a command line that runs nothing. -/
def Transcript.ofRefusal (command : String) (refusal : Refusal) : Transcript where
  events := [.line (refusal.message command)]
  output := ""
  exitCode := refusal.exitCode

/-- A log record of the given level. -/
def Event.log (level : Log.Level) (message : String) : Event :=
  .record ⟨level, message⟩

/-- The columns of a step: instruction and registers. -/
def stepText (step : Step) : String :=
  Text.alignLeft 16 step.instruction.text ++ " " ++ step.registers.text

/-- The number of a step in the trace and the position of its instruction. -/
def stepPlace (number : Nat) (step : Step) : String :=
  Text.alignRight 4 number.repr ++ " @ " ++ Text.alignRight 3 step.position.repr

/-- The steps of a trace with their numbers from 1 on. -/
def numbered (trace : List Step) : List (Nat × Step) :=
  (trace.zipIdx 1).map fun (step, number) => (number, step)

/-- The program and the input of a run. -/
def opening (sample : Sample) (input : List Int64) : List Event := [
  .log .info ("program `" ++ sample.name ++ "`:\n" ++ sample.program.listing),
  .log .info ("input: " ++ Text.bracketed input)]

/-- Where and why a run failed. -/
def failureText (position : Nat) (fault : Fault) : String :=
  "at position " ++ position.repr ++ ": " ++ fault.message

/-- What is logged while a program runs: each step, and the end of the run. -/
def progress (outcome : Outcome) : List Event :=
  (numbered outcome.trace).map (fun (number, step) =>
    .log .debug ("step " ++ stepPlace number step ++ ": " ++ stepText step)) ++
  [match outcome with
    | .success _ trace =>
        .log .debug ("run halted after " ++ trace.length.repr ++ " steps")
    | .failure fault position _ =>
        .log .warn ("run faulted " ++ failureText position fault)]

/-- The steps of a run and what they cost. -/
def report (outcome : Outcome) : List Event :=
  let cost := outcome.cost
  (numbered outcome.trace).map (fun (number, step) =>
    .log .info (stepPlace number step ++ "  " ++ stepText step)) ++
  [.log .info ("uniform cost:     " ++ cost.uniform.repr),
    .log .info ("logarithmic cost: " ++ cost.logarithmic.repr)] ++
  cost.profile.entries.map fun (category, amount) =>
    .log .info ("  " ++ Text.alignLeft 12 category.name ++ " " ++ amount.repr)

/-- The outcome of a sample. Without a limit the sample's own bound takes its place, within which
it ends. -/
def sampleOutcome (sample : Sample) (options : Options) : Outcome :=
  let machine : Machine := { program := sample.program, config.stepLimit := options.stepLimit }
  machine.runFor (options.stepLimit.getD (sample.stepBound options.input.length)) options.input

/-- The transcript of a run. The program, the input and the report are left out when it is to be
quiet. -/
def Transcript.ofRun (sample : Sample) (options : Options) : Transcript :=
  let outcome := sampleOutcome sample options
  let said :=
    if options.quiet then
      progress outcome
    else
      opening sample options.input ++ progress outcome ++ report outcome
  match outcome with
  | .success output _ =>
      { events := said
        output := " ".intercalate (output.map Text.decimal) ++ "\n"
        exitCode := 0 }
  | .failure fault position _ =>
      { events := said ++ [.log .error ("fault " ++ failureText position fault)]
        output := ""
        exitCode := 2 }

/-- The transcript of a command line: the name of the command and the words after it. -/
def Transcript.ofWords (command : String) (words : List String) : Transcript :=
  match ({} : Options).read words with
  | .error refusal => ofRefusal command refusal
  | .ok options =>
      match Sample.ofName? options.program with
      | some sample => ofRun sample options
      | none => ofRefusal command (.unknownProgram options.program)

end RandomAccess.CommandLine
