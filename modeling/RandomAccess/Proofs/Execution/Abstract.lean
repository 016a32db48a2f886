import RandomAccess.Proofs.Execution.Stepping

/-!
# The abstract machine

A machine without storage: every index has a register from the start, registers and tapes hold
integers, and nothing grows. One rule says what each instruction does and one when each fault is
met. The rules of an instruction exclude each other, so the premises fix which of two faults that
compete is met: an address before a divisor, a divisor before an overflow, the tape before a limit.
What an operation computes is said by an equation, a quotient by the rest that it leaves.
-/

namespace RandomAccess

/-- When a conditional jump is taken, by the integer in register 0. -/
def Condition.Holds : Condition → Int → Prop
  | .zero, number => number = 0
  | .positive, number => 0 < number

/-- The machine between two steps. -/
structure Ram where
  /-- The registers of all indices. -/
  registers : Nat → Int
  /-- The position of the next instruction. -/
  counter : Nat
  /-- The input that is not yet read. -/
  input : List Int
  /-- The number of input values that were read. -/
  consumed : Nat
  /-- The output so far. -/
  output : List Int
  /-- Whether `HALT` was executed. -/
  halted : Bool

namespace Ram

/-- The numbers that a register can be given. -/
def Representable (number : Int) : Prop :=
  -9223372036854775808 ≤ number ∧ number ≤ 9223372036854775807

/-- The value of an operand; there is none through a negative address. -/
def value? (ram : Ram) : Operand → Option Int
  | .literal value => some value.toInt
  | .direct address => some (ram.registers address.toNat)
  | .indirect address =>
      if ram.registers address.toNat < 0 then
        none
      else
        some (ram.registers (ram.registers address.toNat).toNat)

/-- Whether a number is the exact result of an operation. The rest of a division is smaller than
the divisor and has the sign of the dividend, which truncates the quotient toward zero. -/
def Computes : ArithOp → Int → Int → Int → Prop
  | .add, left, right, number => number = left + right
  | .sub, left, right, number => number = left - right
  | .mult, left, right, number => number = left * right
  | .div, left, right, number => ∃ rest, left = right * number + rest ∧
      rest.natAbs < right.natAbs ∧ (0 ≤ left → 0 ≤ rest) ∧ (left ≤ 0 → rest ≤ 0)

/-- Puts a number into a register. -/
def put (ram : Ram) (index : Nat) (number : Int) : Ram :=
  { ram with registers := fun other => if other = index then number else ram.registers other }

/-- Goes on at the next position. -/
def proceed (ram : Ram) : Ram :=
  { ram with counter := ram.counter + 1 }

/-- The rules of the instructions. -/
inductive Executes (limit : Nat) (ram : Ram) : Instruction → Ram → Prop
  | load {operand number} : ram.value? operand = some number →
      Executes limit ram (.load operand) (ram.put 0 number).proceed
  | store {target} : target.address < limit →
      Executes limit ram (.store target) (ram.put target.address (ram.registers 0)).proceed
  | arith {op operand number result} : ram.value? operand = some number →
      Computes op (ram.registers 0) number result → Representable result →
      Executes limit ram (.arith op operand) (ram.put 0 result).proceed
  | jump {position} : Executes limit ram (.jump position) { ram with counter := position.toNat }
  | taken {condition position} : condition.Holds (ram.registers 0) →
      Executes limit ram (.branch condition position) { ram with counter := position.toNat }
  | untaken {condition position} : ¬ condition.Holds (ram.registers 0) →
      Executes limit ram (.branch condition position) ram.proceed
  | read {target number rest} : ram.input = number :: rest → target.address < limit →
      Executes limit ram (.read target)
        ({ ram with input := rest, consumed := ram.consumed + 1 }.put target.address number).proceed
  | write {operand number} : ram.value? operand = some number →
      Executes limit ram (.write operand) { ram with output := ram.output ++ [number] }.proceed
  | halt : Executes limit ram .halt { ram with halted := true }

/-- The faults of the instructions. -/
inductive Refuses (limit : Nat) (ram : Ram) : Instruction → Fault → Prop
  | negativeAddress {instruction address} : instruction.source? = some (.indirect address) →
      ram.registers address.toNat < 0 →
      Refuses limit ram instruction
        (.negativeAddress (Int64.ofInt (ram.registers address.toNat)))
  | divisionByZero {operand} : ram.value? operand = some 0 →
      Refuses limit ram (.arith .div operand) .divisionByZero
  | arithmeticOverflow {op operand number result} : ram.value? operand = some number →
      Computes op (ram.registers 0) number result → ¬ Representable result →
      Refuses limit ram (.arith op operand)
        (.arithmeticOverflow (Instruction.arith op operand).mnemonic)
  | inputExhausted {target} : ram.input = [] →
      Refuses limit ram (.read target) (.inputExhausted ram.consumed)
  | readLimit {target} : ram.input ≠ [] → limit ≤ target.address →
      Refuses limit ram (.read target) (.registerLimit target.address limit)
  | storeLimit {target} : limit ≤ target.address →
      Refuses limit ram (.store target) (.registerLimit target.address limit)

/-- A step of a program that succeeds, with the instruction that is executed. -/
def Steps (program : Program) (limit : Nat) (ram : Ram) (instruction : Instruction) (after : Ram) :
    Prop :=
  program.get? ram.counter = some instruction ∧ Executes limit ram instruction after

/-- A step of a program that fails. A position outside of the program is the first thing that is
looked at. -/
inductive Fails (program : Program) (limit : Nat) (ram : Ram) : Fault → Prop
  | outside : ram.counter = 0 ∨ program.size < ram.counter →
      Fails program limit ram (.invalidProgramCounter ram.counter program.size)
  | refused {instruction fault} : program.get? ram.counter = some instruction →
      Refuses limit ram instruction fault → Fails program limit ram fault

end Ram

/-- A state without its storage and its bookkeeping. -/
def State.ram (state : State) : Ram where
  registers index := (state.registers.get index).toInt
  counter := state.counter
  input := state.input.map Int64.toInt
  consumed := state.consumed
  output := state.output.toList.map Int64.toInt
  halted := decide (state.status = .halted)

end RandomAccess
