import RandomAccess.CommandLine.Options
import RandomAccess.Program.Sample

/-!
# Usage and refusals

What is said when nothing is run: the usage text if it was asked for, and else one line on the
word that was not understood. Only the usage text is no error.
-/

namespace RandomAccess.CommandLine

/-- The usage text of a command, which is known by the name that it is called by. -/
def usage (command : String) : String :=
  String.join <| [
    "RAM Machine",
    "",
    "USAGE:",
    "    " ++ command ++ " [OPTIONS] [INPUT]...",
    "",
    "ARGS:",
    "    [INPUT]...    Integers placed on the input tape, in order",
    "",
    "OPTIONS:",
    "    --program <name>    Sample program to run: abs, sum or select (default: abs)",
    "    --steps <n>         Fail the run after n steps",
    "    --quiet             Print only the output tape",
    "    -h, --help          Print this help message",
    "",
    "ENVIRONMENT:",
    "    RAM_LOG    Minimum log level: debug, info, warn or error (default: info)",
    "",
    "EXAMPLES:",
    "    # Absolute value of -5",
    "    " ++ command ++ " -- -5",
    "",
    "    # Sum until zero, with a step budget",
    "    " ++ command ++ " --program sum --steps 100 3 4 5 0",
    "",
    "    # Pick the second of three values",
    "    " ++ command ++ " --program select 10 20 30 2"].map (· ++ "\n")

/-- What a command says when nothing is run. -/
def Refusal.message (command : String) : Refusal → String
  | help => usage command
  | missingProgram => "--program requires an argument"
  | invalidSteps => "--steps requires a non-negative integer"
  | invalidInput word => "Invalid input value: " ++ word
  | unknownProgram name =>
      "Unknown program: " ++ name ++ " (expected one of " ++
        ", ".intercalate (Sample.all.map Sample.name) ++ ")"

/-- Asking for help is no error. -/
def Refusal.exitCode : Refusal → Nat
  | help => 0
  | missingProgram | invalidSteps | invalidInput _ | unknownProgram _ => 1

end RandomAccess.CommandLine
