import RandomAccess.CommandLine.Screen

/-!
# The command

Runs a sample program from the command line. Everything that is decided is decided by the answer
to its words; here it is only written.
-/

/-- Reads the environment, writes the answer and exits with its code. -/
def main (words : List String) : IO UInt32 := do
  let environment : RandomAccess.CommandLine.Environment := {
    logLevel := ← IO.getEnv RandomAccess.CommandLine.logVariable
    terminal := ← IO.getEnv "TERM"
    noColour := ← IO.getEnv "NO_COLOR" }
  let answer := RandomAccess.CommandLine.answer "ram_machine"
    RandomAccess.CommandLine.Environment.screen environment words
  IO.eprint answer.errors
  IO.print answer.output
  return answer.exitCode.toUInt32
