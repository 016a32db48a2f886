import RandomAccess.Execution.Fault

/-!
# Checked arithmetic

The four operations on values. The result is the exact one over the integers; a quotient is
truncated toward zero. A result outside of the signed 64-bit range is a fault, and so is any
division by zero.
-/

namespace RandomAccess

/-- The value equal to `n`, if there is one. -/
def narrow? (n : Int) : Option Int64 :=
  if Int64.minValue.toInt ≤ n ∧ n ≤ Int64.maxValue.toInt then some (Int64.ofInt n) else none

/-- Narrowing keeps the number. -/
theorem narrow?_eq_some_iff {n : Int} {v : Int64} : narrow? n = some v ↔ v.toInt = n := by
  unfold narrow?
  constructor
  · intro h
    split at h
    · next hn =>
      obtain rfl := Option.some.inj h
      rw [Int64.toInt_minValue, Int64.toInt_maxValue] at hn
      exact Int64.toInt_ofInt_of_le hn.1 (by omega)
    · simp at h
  · rintro rfl
    rw [if_pos ⟨v.minValue_le_toInt, v.toInt_le⟩, Int64.ofInt_toInt]

/-- An arithmetic operation of the machine. -/
inductive ArithOp where
  | add
  | sub
  | mult
  | div
  deriving DecidableEq, Repr, Inhabited

/-- A number as a value, or the overflow of the instruction whose result it is. -/
def checked (mnemonic : String) (number : Int) : Except Fault Int64 :=
  match narrow? number with
  | some value => .ok value
  | none => .error (.arithmeticOverflow mnemonic)

/-- What the check lets through equals the number. -/
theorem checked_eq_ok_iff {mnemonic : String} {number : Int} {value : Int64} :
    checked mnemonic number = .ok value ↔ value.toInt = number := by
  rw [← narrow?_eq_some_iff, checked]
  cases narrow? number with
  | none => simp
  | some found => simp

/-- The check refuses a number that no value equals. -/
theorem checked_eq_error_iff {mnemonic : String} {number : Int} {fault : Fault} :
    checked mnemonic number = .error fault ↔
      (¬ ∃ value : Int64, value.toInt = number) ∧ fault = .arithmeticOverflow mnemonic := by
  simp only [← narrow?_eq_some_iff, checked]
  cases narrow? number with
  | none => simp [eq_comm]
  | some found => simp

/-- The checked result of an operation. An overflow carries the name of the instruction. -/
def ArithOp.apply (op : ArithOp) (left right : Int64) : Except Fault Int64 :=
  match op with
  | add => checked "ADD" (left.toInt + right.toInt)
  | sub => checked "SUB" (left.toInt - right.toInt)
  | mult => checked "MULT" (left.toInt * right.toInt)
  | div =>
      if right = 0 then
        .error .divisionByZero
      else
        checked "DIV" (left.toInt.tdiv right.toInt)

end RandomAccess
