import RandomAccess.Program.Basic

/-!
# Building a program

A builder takes instructions one by one and tells the position of the next one, so that a later
jump can lead back to it. Building a program empties the builder.
-/

namespace RandomAccess

/-- The instructions appended since the last program was built. -/
structure Builder where
  /-- The instructions in the order in which they were appended. -/
  pending : Array Instruction
  deriving DecidableEq, Repr, Inhabited

namespace Builder

/-- A builder that holds nothing. -/
def empty : Builder := ⟨#[]⟩

/-- The position of the next instruction. -/
def nextPosition (builder : Builder) : Nat :=
  builder.pending.size + 1

/-- Appends an instruction. -/
def push (builder : Builder) (instruction : Instruction) : Builder :=
  ⟨builder.pending.push instruction⟩

section

variable (builder : Builder)

/-- Appends `LOAD`. -/
def load (operand : Operand) : Builder := builder.push (.load operand)

/-- Appends `STORE`. -/
def store (target : Target) : Builder := builder.push (.store target)

/-- Appends `ADD`. -/
def add (operand : Operand) : Builder := builder.push (.arith .add operand)

/-- Appends `SUB`. -/
def sub (operand : Operand) : Builder := builder.push (.arith .sub operand)

/-- Appends `MULT`. -/
def mult (operand : Operand) : Builder := builder.push (.arith .mult operand)

/-- Appends `DIV`. -/
def div (operand : Operand) : Builder := builder.push (.arith .div operand)

/-- Appends `READ`. -/
def read (target : Target) : Builder := builder.push (.read target)

/-- Appends `WRITE`. -/
def write (operand : Operand) : Builder := builder.push (.write operand)

/-- Appends `JUMP`. -/
def jump (position : UInt64) : Builder := builder.push (.jump position)

/-- Appends `JZERO`. -/
def jzero (position : UInt64) : Builder := builder.push (.branch .zero position)

/-- Appends `JGTZ`. -/
def jgtz (position : UInt64) : Builder := builder.push (.branch .positive position)

/-- Appends `HALT`. -/
def halt : Builder := builder.push .halt

end

/-- Appends an instruction through the operation that bears its mnemonic. -/
def append (builder : Builder) : Instruction → Builder
  | .load operand => builder.load operand
  | .store target => builder.store target
  | .arith .add operand => builder.add operand
  | .arith .sub operand => builder.sub operand
  | .arith .mult operand => builder.mult operand
  | .arith .div operand => builder.div operand
  | .read target => builder.read target
  | .write operand => builder.write operand
  | .jump position => builder.jump position
  | .branch .zero position => builder.jzero position
  | .branch .positive position => builder.jgtz position
  | .halt => builder.halt

/-- Appends a jump to the position that it takes itself. -/
def pushLoop (builder : Builder) : Builder :=
  builder.push (.jump builder.nextPosition.toUInt64)

/-- The program of all pending instructions, and the builder after it. -/
def build (builder : Builder) : Program × Builder :=
  (⟨builder.pending⟩, empty)

@[simp] theorem nextPosition_empty : empty.nextPosition = 1 := rfl

@[simp] theorem nextPosition_push (builder : Builder) (instruction : Instruction) :
    (builder.push instruction).nextPosition = builder.nextPosition + 1 := by
  simp [nextPosition, push]

@[simp] theorem toList_pending_push (builder : Builder) (instruction : Instruction) :
    (builder.push instruction).pending.toList = builder.pending.toList ++ [instruction] :=
  Array.toList_push

/-- Each operation appends the instruction of its mnemonic. -/
@[simp] theorem append_eq_push (builder : Builder) (instruction : Instruction) :
    builder.append instruction = builder.push instruction := by
  cases instruction with
  | arith op operand => cases op <;> rfl
  | branch condition position => cases condition <;> rfl
  | load | store | jump | read | write | halt => rfl

end Builder

end RandomAccess
