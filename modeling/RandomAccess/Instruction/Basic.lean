import RandomAccess.Instruction.Operand

/-!
# Instructions

The instruction set, with the mnemonic, the category and the text of each instruction. Only
control instructions say where the run goes on; all others are followed by the next position.
-/

namespace RandomAccess

/-- What an instruction is about. -/
inductive Category where
  | arithmetic
  | control
  | io
  deriving DecidableEq, Repr, Inhabited

namespace Category

/-- The categories in their order. -/
def all : List Category := [arithmetic, control, io]

/-- The place of a category in the order. -/
def index : Category → Nat
  | arithmetic => 0
  | control => 1
  | io => 2

/-- The name of a category in reports. -/
def name : Category → String
  | arithmetic => "Arithmetic"
  | control => "Control"
  | io => "I/O"

/-- Whether instructions of the category set the program counter themselves. -/
def managesCounter : Category → Bool
  | control => true
  | arithmetic | io => false

end Category

/-- When a conditional jump is taken. -/
inductive Condition where
  /-- The accumulator is 0. -/
  | zero
  /-- The accumulator is greater than 0. -/
  | positive
  deriving DecidableEq, Repr, Inhabited

/-- Whether the condition holds of the accumulator's value. -/
def Condition.holds : Condition → Int64 → Bool
  | zero, value => value == 0
  | positive, value => 0 < value

/-- An instruction of the machine. Positions count from 1. -/
inductive Instruction where
  /-- Puts a value into the accumulator. -/
  | load (operand : Operand)
  /-- Writes the accumulator to a register. -/
  | store (target : Target)
  /-- Combines the accumulator with a value. -/
  | arith (op : ArithOp) (operand : Operand)
  /-- Goes on at a position. -/
  | jump (position : UInt64)
  /-- Goes on at a position if the condition holds, and else at the next one. -/
  | branch (condition : Condition) (position : UInt64)
  /-- Moves the next input value to a register. -/
  | read (target : Target)
  /-- Appends a value to the output. -/
  | write (operand : Operand)
  /-- Ends the run. -/
  | halt
  deriving DecidableEq, Repr, Inhabited

namespace Instruction

/-- The name of an instruction. -/
def mnemonic : Instruction → String
  | load _ => "LOAD"
  | store _ => "STORE"
  | arith .add _ => "ADD"
  | arith .sub _ => "SUB"
  | arith .mult _ => "MULT"
  | arith .div _ => "DIV"
  | jump _ => "JUMP"
  | branch .zero _ => "JZERO"
  | branch .positive _ => "JGTZ"
  | read _ => "READ"
  | write _ => "WRITE"
  | halt => "HALT"

/-- The category of an instruction. -/
def category : Instruction → Category
  | load _ | store _ | arith _ _ => .arithmetic
  | jump _ | branch _ _ | halt => .control
  | read _ | write _ => .io

/-- Whether the instruction sets the program counter itself. -/
def managesCounter (instruction : Instruction) : Bool :=
  instruction.category.managesCounter

/-- What the instruction is written and charged with. A position stands there as a literal. -/
def operand? : Instruction → Option Operand
  | load operand | arith _ operand | write operand => some operand
  | store target | read target => some target.operand
  | jump position | branch _ position => some (.position position)
  | halt => none

/-- The mnemonic and what follows it. -/
def text (instruction : Instruction) : String :=
  match instruction.operand? with
  | some operand => instruction.mnemonic ++ " " ++ operand.text
  | none => instruction.mnemonic

/-- No instruction but `HALT` lacks an operand. -/
theorem operand?_eq_none_iff {instruction : Instruction} :
    instruction.operand? = none ↔ instruction = halt := by
  cases instruction <;> simp [operand?]

end Instruction

end RandomAccess
