import RandomAccess.Proofs.InPlace.Action
import RandomAccess.Proofs.Memory.Storage

/-!
# The register file in place

The operations of the register file as sequences of single changes: storage is looked up within
its bounds, indices and capacities are machine words, and doubling is a loop that stops at the
largest word. On a register file that stores its accumulator each of them stays in range and has
the result of the operation on values; a fault of it is met before the first change.
-/

namespace RandomAccess

/-- The answer of an operation, and the registers that a caller is left with after it. -/
def RegisterFile.settle (registers : RegisterFile) :
    Except Fault RegisterFile → Except Fault Unit × RegisterFile
  | .ok after => (.ok (), after)
  | .error fault => (.error fault, registers)

/-- Arithmetic faults are about the values. -/
theorem ArithOp.apply_ne_notRunning (op : ArithOp) (left right : Int64) :
    op.apply left right ≠ .error .notRunning := by
  cases op with
  | add | sub | mult => simp [apply, checked_eq_error_iff]
  | div =>
    rw [apply]
    split
    · simp
    · simp [checked_eq_error_iff]

namespace InPlace

open RegisterFile

/-- Doubles a capacity, but not past the largest word, as long as it is below `needed`. There is no
result if that is not enough after a number of turns. -/
def doubleWhile (needed : Nat) : Nat → Nat → Option Nat
  | 0, capacity => if capacity < needed then none else some capacity
  | turns + 1, capacity =>
      if capacity < needed then
        doubleWhile needed turns (min (2 * capacity) (UInt64.size - 1))
      else
        some capacity

/-- The content of a stored register. -/
def cell (index : Nat) : InPlace RegisterFile Int64 := do
  let registers ← get
  demand (index < registers.capacity)
  return registers.get index

/-- Replaces the content of a stored register. -/
def setCell (index : Nat) (value : Int64) : InPlace RegisterFile Unit := do
  let registers ← get
  demand (index < registers.capacity)
  modify fun registers => { registers with cells := registers.cells.setIfInBounds index value }

/-- Extends the storage up to a capacity, which must be one that can be had. -/
def extend (capacity : Nat) (fault : Fault) : InPlace RegisterFile Unit := do
  let registers ← get
  demand (registers.capacity ≤ capacity)
  ensure (capacity ≤ largestCapacity) fault
  modify fun registers => { registers with
    cells := registers.cells ++ Array.replicate (capacity - registers.capacity) 0 }

/-- Makes room for an index below the limit. -/
def reserve (index : Nat) : InPlace RegisterFile Unit := do
  let registers ← get
  let fault := Fault.registerLimit index registers.limit
  ensure (index < registers.limit) fault
  let needed ← word (index + 1)
  if needed ≤ registers.capacity then
    return
  else
    let doubled ← doubleWhile needed needed registers.capacity
    extend (min doubled registers.limit) fault

/-- Writes a register. -/
def assign (index : Nat) (value : Int64) : InPlace RegisterFile Unit := do
  reserve index
  setCell index value
  modify fun registers => { registers with maxWritten := max registers.maxWritten index }

/-- Combines the accumulator with a value. -/
def combine (op : ArithOp) (value : Int64) : InPlace RegisterFile Unit := do
  let accumulator ← cell 0
  let result ← ofExcept (op.apply accumulator value)
  setCell 0 result

/-- A copy of the registers up to the highest index written. -/
def snapshot : InPlace RegisterFile RegisterFile := do
  let registers ← get
  let stop ← word (registers.maxWritten + 1)
  demand (stop ≤ registers.capacity)
  return registers.snapshot

theorem doubleWhile_of_le {needed capacity : Nat} (h : needed ≤ capacity) (turns : Nat) :
    doubleWhile needed turns capacity = some capacity := by
  cases turns <;> rw [doubleWhile, if_neg (Nat.not_lt.mpr h)]

/-- The loop ends for every index that is a word below the largest one. It finds the capacity that
exact doubling finds, or the largest word in place of a larger one. -/
theorem doubleWhile_eq {index capacity turns : Nat} (hc : 0 < capacity)
    (hw : capacity < UInt64.size) (hi : index + 1 < UInt64.size)
    (ht : index + 1 ≤ capacity + turns) :
    doubleWhile (index + 1) turns capacity =
      some (min (doubleUntil index capacity) (UInt64.size - 1)) := by
  fun_induction doubleUntil index capacity generalizing turns with
  | case1 capacity h =>
    rw [doubleWhile_of_le (by omega), Nat.min_eq_left (by omega)]
  | case2 capacity h ih =>
    rcases turns with _ | turns
    · omega
    rw [doubleWhile, if_pos (by omega)]
    by_cases hd : 2 * capacity < UInt64.size
    · rw [Nat.min_eq_left (by omega)]
      exact ih (by omega) hd (by omega)
    · -- the loop is cut to the largest word here, and exact doubling is past it for good
      have hle := le_doubleUntil index (2 * capacity)
      rw [Nat.min_eq_right (by omega), Nat.min_eq_right (by omega), doubleWhile_of_le (by omega)]

variable {registers : RegisterFile} {index : Nat}

theorem exec_cell (hi : index < registers.capacity) :
    (cell index).exec registers = some (.ok (registers.get index), registers) := by
  simp only [cell, exec_bind, exec_get, exec_demand hi, exec_pure]

theorem exec_setCell (hi : index < registers.capacity) (value : Int64) :
    (setCell index value).exec registers =
      some (.ok (), { registers with cells := registers.cells.setIfInBounds index value }) := by
  simp only [setCell, exec_bind, exec_get, exec_demand hi, exec_modify]

theorem exec_extend {capacity : Nat} (hc : registers.capacity ≤ capacity) (fault : Fault) :
    (extend capacity fault).exec registers =
      if capacity ≤ largestCapacity then
        some (.ok (), { registers with
          cells := registers.cells ++ Array.replicate (capacity - registers.capacity) 0 })
      else
        some (.error fault, registers) := by
  simp only [extend, exec_bind, exec_get, exec_demand hc, exec_ensure]
  by_cases hl : capacity ≤ largestCapacity
  · simp only [if_pos hl, exec_modify]
  · simp only [if_neg hl]

/-- Storage cut to a limit is the same whether or not doubling was cut to the largest word. -/
theorem min_doubled_limit (hi : registers.capacity ≤ index)
    (hl : registers.limit < UInt64.size) :
    min (min (doubleUntil index registers.capacity) (UInt64.size - 1)) registers.limit =
      registers.capacityFor index := by
  rw [capacityFor, if_neg (Nat.not_lt.mpr hi)]
  omega

/-- Making room either extends the storage to the capacity foreseen for the index, or is refused
and changes nothing. -/
theorem exec_reserve (hc : 0 < registers.capacity) (hl : registers.limit < UInt64.size) :
    (reserve index).exec registers =
      if registers.admits index then
        some (.ok (), { registers with
          cells := registers.cells ++
            Array.replicate (registers.capacityFor index - registers.capacity) 0 })
      else
        some (.error (.registerLimit index registers.limit), registers) := by
  by_cases hi : index < registers.limit
  · have hword : index + 1 < UInt64.size := by omega
    simp only [reserve, exec_bind, exec_get, exec_ensure, if_pos hi, exec_word hword]
    by_cases hs : index < registers.capacity
    · have hroom : registers.capacityFor index - registers.capacity = 0 := by
        rw [capacityFor, if_pos hs, Nat.sub_self]
      have ha : registers.admits index = true := by simp [admits, hi, hs]
      rw [if_pos (show index + 1 ≤ registers.capacity from hs), if_pos ha, hroom]
      simp
    · have hle := Nat.le_of_not_lt hs
      have ha : registers.admits index = true ↔ registers.capacityFor index ≤ largestCapacity := by
        simp [admits, hi, hs]
      rw [if_neg (show ¬ index + 1 ≤ registers.capacity from hs)]
      simp only [exec_bind, exec_liftM, Option.map_some,
        doubleWhile_eq hc (Nat.lt_of_le_of_lt hle (by omega)) hword (Nat.le_add_left _ _)]
      rw [min_doubled_limit hle hl, exec_extend (capacity_le_capacityFor hi)]
      simp only [ha]
  · have ha : ¬ registers.admits index = true := fun h => hi (lt_limit_of_admits h)
    simp only [reserve, exec_bind, exec_get, exec_ensure, if_neg hi, if_neg ha]

/-- Writing in place is writing, and leaves the registers alone if it is refused. -/
theorem exec_assign (hc : 0 < registers.capacity) (hl : registers.limit < UInt64.size)
    (value : Int64) :
    (assign index value).exec registers =
      some (registers.settle (registers.set index value)) := by
  simp only [assign, exec_bind, exec_reserve hc hl, RegisterFile.set, check]
  by_cases ha : registers.admits index = true
  · have hi := lt_limit_of_admits ha
    have hroom : index < RegisterFile.capacity { registers with
        cells := registers.cells ++
          Array.replicate (registers.capacityFor index - registers.capacity) 0 } := by
      have hlt := lt_capacityFor hc hi
      simp only [capacity, Array.size_append, Array.size_replicate] at hlt ⊢
      omega
    simp only [if_pos ha, exec_setCell hroom, exec_modify]
    rfl
  · simp only [if_neg ha]
    rfl

/-- Combining in place is combining, and leaves the registers alone if it fails. -/
theorem exec_combine (hc : 0 < registers.capacity) (op : ArithOp) (value : Int64) :
    (combine op value).exec registers =
      some (registers.settle (registers.combine op value)) := by
  simp only [combine, exec_bind, exec_cell hc, exec_ofExcept, RegisterFile.combine, accumulator]
  cases op.apply (registers.get 0) value with
  | error fault => rfl
  | ok result =>
    simp only [exec_setCell hc]
    rfl

/-- A copy in place is the snapshot. -/
theorem exec_snapshot (hm : registers.maxWritten < registers.capacity)
    (hw : registers.maxWritten + 1 < UInt64.size) :
    snapshot.exec registers = some (.ok registers.snapshot, registers) := by
  simp only [snapshot, exec_bind, exec_get, exec_word hw,
    exec_demand (show registers.maxWritten + 1 ≤ registers.capacity from hm), exec_pure]

theorem readOnly_cell (index : Nat) : (cell index).ReadOnly :=
  readOnly_get.bind fun _ => (readOnly_demand _).bind fun _ => readOnly_pure _

theorem readOnly_snapshot : snapshot.ReadOnly :=
  readOnly_get.bind fun _ => (readOnly_word _).bind fun _ =>
    (readOnly_demand _).bind fun _ => readOnly_pure _

theorem unfailing_cell (index : Nat) : (cell index).Unfailing :=
  unfailing_get.bind fun _ => (unfailing_demand _).bind fun _ => unfailing_pure _

theorem unfailing_setCell (index : Nat) (value : Int64) : (setCell index value).Unfailing :=
  unfailing_get.bind fun _ => (unfailing_demand _).bind fun _ => unfailing_modify _

theorem unfailing_snapshot : snapshot.Unfailing :=
  unfailing_get.bind fun _ => (unfailing_word _).bind fun _ =>
    (unfailing_demand _).bind fun _ => unfailing_pure _

theorem atomic_extend (capacity : Nat) {fault : Fault} (h : fault ≠ .notRunning) :
    (extend capacity fault).Atomic := by
  refine readOnly_get.bind_atomic unfailing_get.atomic fun registers => ?_
  refine (readOnly_demand _).bind_atomic (unfailing_demand _).atomic fun _ => ?_
  exact (atomic_ensure _ h).bind_unfailing fun _ => unfailing_modify _

/-- All checks of an index come before the storage is extended. -/
theorem atomic_reserve (index : Nat) : (reserve index).Atomic := by
  refine readOnly_get.bind_atomic unfailing_get.atomic fun registers => ?_
  refine (readOnly_ensure _ _).bind_atomic (atomic_ensure _ (by simp)) fun _ => ?_
  refine (readOnly_word _).bind_atomic (unfailing_word _).atomic fun needed => ?_
  split
  · exact (unfailing_pure ()).atomic
  · refine (readOnly_liftM _).bind_atomic (unfailing_liftM _).atomic fun doubled => ?_
    exact atomic_extend _ (by simp)

theorem atomic_assign (index : Nat) (value : Int64) : (assign index value).Atomic :=
  (atomic_reserve index).bind_unfailing fun _ =>
    (unfailing_setCell index value).bind fun _ => unfailing_modify _

theorem atomic_combine (op : ArithOp) (value : Int64) : (combine op value).Atomic := by
  refine (readOnly_cell 0).bind_atomic (unfailing_cell 0).atomic fun accumulator => ?_
  exact (atomic_ofExcept (op.apply_ne_notRunning accumulator value)).bind_unfailing
    fun _ => unfailing_setCell 0 _

end InPlace

end RandomAccess
