/-!
# Faults

The causes for which a run stops before `HALT`, and the text of each. Every fault ends the run
that meets it, except `notRunning`, which answers a step that is asked of a finished run.
-/

namespace RandomAccess

/-- Why a step cannot be made. -/
inductive Fault where
  /-- A division by zero. -/
  | divisionByZero
  /-- A value was asked of an input tape of which all `consumed` values are read. -/
  | inputExhausted (consumed : Nat)
  /-- No instruction stands at `position` in a program of `size` instructions. -/
  | invalidProgramCounter (position size : Nat)
  /-- The run was still going on after the number of steps allowed to it. -/
  | stepLimitExceeded (limit : Nat)
  /-- The exact result of the named instruction does not fit the accumulator. -/
  | arithmeticOverflow (mnemonic : String)
  /-- An indirect operand goes through a register that holds a negative value. -/
  | negativeAddress (address : Int64)
  /-- A write to a register that the register file cannot hold. -/
  | registerLimit (index limit : Nat)
  /-- A step was asked of a run that has ended. -/
  | notRunning
  deriving DecidableEq, Repr, Inhabited

/-- The text of a fault. -/
def Fault.message : Fault → String
  | .divisionByZero => "division by zero"
  | .inputExhausted consumed => s!"input exhausted after {consumed} values"
  | .invalidProgramCounter position size =>
      s!"invalid program counter {position} (program has {size} instructions)"
  | .stepLimitExceeded limit => s!"step limit of {limit} reached"
  | .arithmeticOverflow mnemonic => s!"arithmetic overflow in {mnemonic}"
  | .negativeAddress address => s!"negative register address {address.toInt}"
  | .registerLimit index limit => s!"register {index} is past the limit of {limit} registers"
  | .notRunning => "machine is not running"

end RandomAccess
