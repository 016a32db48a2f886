import RandomAccess.Instruction.Arithmetic
import RandomAccess.Memory.Growth
import RandomAccess.Text.Column

/-!
# The register file

Every index has a register, and a register that was never written holds 0. Register 0 is the
accumulator. Only the registers below the capacity are stored; a write past it makes the storage
grow, and reads never do. A write is refused from the limit on, and also if the storage it needs
is more than can be allocated.

Two register files are equal if the highest index written and all registers are the same. The
capacity is not seen.
-/

namespace RandomAccess

/-- The registers of a machine. -/
structure RegisterFile where
  /-- The stored registers, from register 0 on. -/
  cells : Array Int64
  /-- The highest index that was written; 0 before the first write. -/
  maxWritten : Nat
  /-- The number of registers that may be written. -/
  limit : Nat
  deriving Repr, Inhabited

namespace RegisterFile

/-- The capacity of a new register file. -/
def defaultCapacity : Nat := 16

/-- The limit of a new register file, `2 ^ 24`. -/
def defaultLimit : Nat := 16777216

/-- The largest capacity to grow to: storage takes at most `2 ^ 63 - 1` bytes, 8 for a register. -/
def largestCapacity : Nat := Int64.maxValue.toInt.toNat / 8

/-- A register file that stores `capacity` registers, or the accumulator alone. -/
def withCapacity (capacity : Nat) : RegisterFile where
  cells := Array.replicate (max capacity 1) 0
  maxWritten := 0
  limit := defaultLimit

/-- The same registers with another limit; register 0 is always within it. -/
def withLimit (registers : RegisterFile) (limit : Nat) : RegisterFile :=
  { registers with limit := max limit 1 }

/-- The number of stored registers. -/
def capacity (registers : RegisterFile) : Nat :=
  registers.cells.size

/-- The value of a register. -/
def get (registers : RegisterFile) (index : Nat) : Int64 :=
  registers.cells.getD index 0

/-- The value of register 0. -/
def accumulator (registers : RegisterFile) : Int64 :=
  registers.get 0

/-- The capacity that a write to `index` leaves. -/
def capacityFor (registers : RegisterFile) (index : Nat) : Nat :=
  if index < registers.capacity then
    registers.capacity
  else
    min (doubleUntil index registers.capacity) registers.limit

/-- Whether `index` is below the limit, with storage for it at hand or to be had. -/
def admits (registers : RegisterFile) (index : Nat) : Bool :=
  index < registers.limit &&
    (index < registers.capacity || registers.capacityFor index ≤ largestCapacity)

/-- The register file after a write to an index that it admits. -/
def write (registers : RegisterFile) (index : Nat) (value : Int64) : RegisterFile :=
  let room := registers.capacityFor index - registers.capacity
  { registers with
    cells := (registers.cells ++ Array.replicate room 0).setIfInBounds index value
    maxWritten := max registers.maxWritten index }

/-- The fault of a write to an index that the register file does not admit, if it is one. -/
def check (registers : RegisterFile) (index : Nat) : Except Fault Unit :=
  if registers.admits index then .ok () else .error (.registerLimit index registers.limit)

/-- Writes a register. -/
def set (registers : RegisterFile) (index : Nat) (value : Int64) : Except Fault RegisterFile := do
  registers.check index
  return registers.write index value

/-- Puts a value into the accumulator. This is no write: the highest index written stays. -/
def load (registers : RegisterFile) (value : Int64) : RegisterFile :=
  { registers with cells := registers.cells.setIfInBounds 0 value }

/-- Combines the accumulator with a value. -/
def combine (registers : RegisterFile) (op : ArithOp) (value : Int64) :
    Except Fault RegisterFile := do
  let result ← op.apply registers.accumulator value
  return registers.load result

/-- The registers up to the highest index written, as stored. -/
def used (registers : RegisterFile) : List Int64 :=
  (registers.cells.take (registers.maxWritten + 1)).toList

/-- The same registers without the storage past the highest index written. -/
def snapshot (registers : RegisterFile) : RegisterFile :=
  { registers with cells := registers.cells.take (registers.maxWritten + 1) }

/-- The registers up to the highest index written, as text. -/
def text (registers : RegisterFile) : String :=
  Text.bracketed registers.used

instance : BEq RegisterFile where
  beq a b :=
    a.maxWritten == b.maxWritten &&
      (List.range (max a.capacity b.capacity)).all fun index => a.get index == b.get index

/-- A register past the storage holds 0. -/
theorem get_eq_zero_of_capacity_le {registers : RegisterFile} {index : Nat}
    (h : registers.capacity ≤ index) : registers.get index = 0 := by
  simp only [get, Array.getD_eq_getD_getElem?]
  rw [Array.getElem?_eq_none h]
  rfl

/-- A new register file holds 0 everywhere. -/
@[simp] theorem get_withCapacity (capacity index : Nat) :
    (withCapacity capacity).get index = 0 := by
  simp only [get, withCapacity, Array.getD_eq_getD_getElem?, Array.getElem?_replicate]
  split <;> rfl

@[simp] theorem get_withLimit (registers : RegisterFile) (limit index : Nat) :
    (registers.withLimit limit).get index = registers.get index := rfl

/-- Equality compares the highest index written and every register, stored or not. -/
theorem beq_iff {a b : RegisterFile} :
    (a == b) = true ↔ a.maxWritten = b.maxWritten ∧ ∀ index, a.get index = b.get index := by
  simp only [BEq.beq, Bool.and_eq_true, List.all_eq_true, List.mem_range, decide_eq_true_eq]
  refine and_congr_right fun _ => ⟨fun h index => ?_, fun h index _ => h index⟩
  by_cases hi : index < max a.capacity b.capacity
  · exact h index hi
  · rw [get_eq_zero_of_capacity_le (by omega), get_eq_zero_of_capacity_le (by omega)]

end RegisterFile

end RandomAccess
