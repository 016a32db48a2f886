import RandomAccess.Proofs.InPlace.Registers

/-!
# Histories of a register file

A register file is what the operations on it have made of a new one. Beside it a journal records
the same operations without any storage: which values were written where, and how far writing is
allowed. After every history the register file holds the values of the journal and no others, for
every index, and it refuses a write exactly where the journal does. Operations that fail are part
of a history; the file is kept as they leave it.
-/

namespace RandomAccess

/-- An operation on a register file. -/
inductive Operation where
  /-- Writes a register. -/
  | set (index : Nat) (value : Int64)
  /-- Puts a value into the accumulator. -/
  | load (value : Int64)
  /-- Combines the accumulator with a value. -/
  | combine (op : ArithOp) (value : Int64)
  /-- Sets the limit. -/
  | withLimit (limit : Nat)
  /-- Goes on with a snapshot. -/
  | snapshot
  /-- Goes on with a copy. -/
  | clone
  deriving DecidableEq, Repr, Inhabited

namespace Operation

/-- The register file that an operation asks for. -/
def apply (registers : RegisterFile) : Operation → Except Fault RegisterFile
  | set index value => registers.set index value
  | load value => .ok (registers.load value)
  | combine op value => registers.combine op value
  | withLimit limit => .ok (registers.withLimit limit)
  | snapshot => .ok registers.snapshot
  | clone => .ok registers

/-- The answer of an operation and the register file after it. -/
def run (operation : Operation) (registers : RegisterFile) : Except Fault Unit × RegisterFile :=
  registers.settle (operation.apply registers)

/-- The operation as an action in place. -/
def action : Operation → InPlace RegisterFile Unit
  | set index value => InPlace.assign index value
  | load value => InPlace.setCell 0 value
  | combine op value => InPlace.combine op value
  | withLimit limit => modify fun registers => registers.withLimit limit
  | snapshot => do
      let copy ← InPlace.snapshot
      modify fun _ => copy
  | clone => pure ()

/-- The operation sets no limit for which storage could not be had. -/
def Allocatable : Operation → Prop
  | withLimit limit => limit ≤ RegisterFile.largestCapacity
  | _ => True

end Operation

/-- The register file after a history of operations on a new one. -/
def RegisterFile.history (capacity : Nat) (operations : List Operation) : RegisterFile :=
  operations.foldl (fun registers operation => (operation.run registers).2)
    (.withCapacity capacity)

/-- What operations have done, without storage. -/
structure Journal where
  /-- All values written so far with their registers, the last one first. -/
  writes : List (Nat × Int64)
  /-- The indices of all writes that succeeded, not those of the accumulator's own operations. -/
  indices : List Nat
  /-- The number of registers that may be written now. -/
  limit : Nat

namespace Journal

/-- The journal of a new register file. -/
def empty : Journal := ⟨[], [], RegisterFile.defaultLimit⟩

/-- The value last written to a register, or 0. -/
def value (journal : Journal) (index : Nat) : Int64 :=
  (journal.writes.lookup index).getD 0

/-- The greatest index of a write, or 0. -/
def highest (journal : Journal) : Nat :=
  journal.indices.foldr max 0

/-- Records an operation. One that fails leaves no trace. -/
def record (journal : Journal) : Operation → Journal
  | .set index value =>
      if index < journal.limit then
        { journal with
          writes := (index, value) :: journal.writes
          indices := index :: journal.indices }
      else
        journal
  | .load value => { journal with writes := (0, value) :: journal.writes }
  | .combine op value =>
      match op.apply (journal.value 0) value with
      | .ok result => { journal with writes := (0, result) :: journal.writes }
      | .error _ => journal
  | .withLimit limit => { journal with limit := max limit 1 }
  | .snapshot | .clone => journal

/-- The journal of a history. -/
def ofList (operations : List Operation) : Journal :=
  operations.foldl record empty

/-- A new entry hides the older ones of its register. -/
theorem lookup_cons (writes : List (Nat × Int64)) (written index : Nat) (value : Int64) :
    (((written, value) :: writes).lookup index).getD 0 =
      if index = written then value else (writes.lookup index).getD 0 := by
  rw [List.lookup_cons]
  by_cases h : index = written
  · simp [h]
  · rw [if_neg h, beq_false_of_ne h]

/-- The journal tells what the register file holds, and the file can always grow to its limit. -/
structure Describes (journal : Journal) (registers : RegisterFile) : Prop where
  wellFormed : registers.WellFormed
  get_eq : ∀ index, registers.get index = journal.value index
  maxWritten_eq : registers.maxWritten = journal.highest
  limit_eq : registers.limit = journal.limit
  limit_le : registers.limit ≤ RegisterFile.largestCapacity
  maxWritten_lt : registers.maxWritten < RegisterFile.largestCapacity

end Journal

section

variable {registers : RegisterFile} {journal : Journal}

/-- Writing is refused where the register file does not admit it, and then leaves it alone. -/
theorem Operation.run_set_of_admits (registers : RegisterFile) (index : Nat) (value : Int64) :
    (Operation.set index value).run registers =
      if registers.admits index then
        (.ok (), registers.write index value)
      else
        (.error (.registerLimit index registers.limit), registers) := by
  simp only [run, apply, RegisterFile.set, RegisterFile.check]
  split <;> rfl

/-- If storage up to the limit can be had, writing is refused from the limit on, and only there. -/
theorem Operation.run_set (hl : registers.limit ≤ RegisterFile.largestCapacity) (index : Nat)
    (value : Int64) :
    (Operation.set index value).run registers =
      if index < registers.limit then
        (.ok (), registers.write index value)
      else
        (.error (.registerLimit index registers.limit), registers) := by
  simp only [run_set_of_admits, RegisterFile.admits_iff_lt hl]

/-- Every operation keeps the shape of a register file, whatever the limits are. -/
theorem RegisterFile.WellFormed.run (h : registers.WellFormed) (operation : Operation) :
    (operation.run registers).2.WellFormed := by
  cases operation with
  | set index value =>
    rw [Operation.run_set_of_admits]
    by_cases ha : registers.admits index = true
    · rw [if_pos ha]
      exact h.write value (RegisterFile.lt_limit_of_admits ha)
    · rw [if_neg ha]
      exact h
  | load value => exact h.load value
  | combine op value =>
    simp only [Operation.run, Operation.apply, RegisterFile.combine]
    cases op.apply registers.accumulator value with
    | error fault => exact h
    | ok result => exact h.load result
  | withLimit limit => exact h.withLimit limit
  | snapshot => exact h.snapshot
  | clone => exact h

/-- If the limit and the highest index written are machine words, every operation stays in range in
place and changes the register file to what it says. -/
theorem RegisterFile.WellFormed.exec_action (h : registers.WellFormed)
    (hl : registers.limit < UInt64.size) (hm : registers.maxWritten + 1 < UInt64.size)
    (operation : Operation) :
    operation.action.exec registers = some (operation.run registers) := by
  have hc := h.capacity_pos
  cases operation with
  | set index value => exact InPlace.exec_assign hc hl value
  | load value => exact InPlace.exec_setCell hc value
  | combine op value => exact InPlace.exec_combine hc op value
  | withLimit limit => rfl
  | snapshot =>
    rw [Operation.action, InPlace.exec_bind, InPlace.exec_snapshot h.maxWritten_lt hm]
    rfl
  | clone => rfl

/-- The shape is there after every history, with any limits at all. -/
theorem RegisterFile.wellFormed_history (capacity : Nat) (operations : List Operation) :
    (history capacity operations).WellFormed := by
  have hrun : ∀ registers : RegisterFile, registers.WellFormed →
      (operations.foldl (fun registers operation => (operation.run registers).2)
        registers).WellFormed := by
    induction operations with
    | nil => exact fun _ h => h
    | cons operation operations ih => exact fun _ h => ih _ (h.run operation)
  exact hrun _ (wellFormed_withCapacity capacity)

namespace Journal.Describes

theorem empty (capacity : Nat) : Journal.empty.Describes (.withCapacity capacity) where
  wellFormed := RegisterFile.wellFormed_withCapacity capacity
  get_eq := RegisterFile.get_withCapacity capacity
  maxWritten_eq := rfl
  limit_eq := rfl
  limit_le := by
    change RegisterFile.defaultLimit ≤ RegisterFile.largestCapacity
    decide
  maxWritten_lt := RegisterFile.largestCapacity_pos

/-- The accumulator's own operations are recorded as writes of register 0 that no index tells. -/
theorem load (h : journal.Describes registers) (value : Int64) :
    Journal.Describes { journal with writes := (0, value) :: journal.writes }
      (registers.load value) where
  wellFormed := h.wellFormed.load value
  get_eq := by
    intro index
    rw [RegisterFile.get_load value h.wellFormed.capacity_pos, Journal.value, lookup_cons,
      h.get_eq index, Journal.value]
  maxWritten_eq := h.maxWritten_eq
  limit_eq := h.limit_eq
  limit_le := h.limit_le
  maxWritten_lt := h.maxWritten_lt

theorem write (h : journal.Describes registers) {index : Nat} (hi : index < registers.limit)
    (value : Int64) :
    Journal.Describes
      { journal with
        writes := (index, value) :: journal.writes
        indices := index :: journal.indices }
      (registers.write index value) where
  wellFormed := h.wellFormed.write value hi
  get_eq := by
    intro other
    rw [RegisterFile.get_write value h.wellFormed.capacity_pos hi, Journal.value, lookup_cons,
      h.get_eq other, Journal.value]
  maxWritten_eq := by
    rw [RegisterFile.maxWritten_write, h.maxWritten_eq]
    exact Nat.max_comm _ _
  limit_eq := h.limit_eq
  limit_le := h.limit_le
  maxWritten_lt := by
    rw [RegisterFile.maxWritten_write]
    exact Nat.max_lt.mpr ⟨h.maxWritten_lt, Nat.lt_of_lt_of_le hi h.limit_le⟩

/-- One operation keeps the journal and the register file together. -/
theorem record_run (h : journal.Describes registers) {operation : Operation}
    (ho : operation.Allocatable) :
    (journal.record operation).Describes (operation.run registers).2 := by
  cases operation with
  | set index value =>
    rw [Operation.run_set h.limit_le, Journal.record]
    by_cases hi : index < registers.limit
    · rw [if_pos hi, if_pos (h.limit_eq ▸ hi)]
      exact h.write hi value
    · rw [if_neg hi, if_neg (h.limit_eq ▸ hi)]
      exact h
  | load value => exact h.load value
  | combine op value =>
    simp only [Operation.run, Operation.apply, RegisterFile.combine, RegisterFile.accumulator,
      Journal.record, h.get_eq]
    cases op.apply (journal.value 0) value with
    | error fault => exact h
    | ok result => exact h.load result
  | withLimit limit =>
    refine ⟨h.wellFormed.withLimit limit, h.get_eq, h.maxWritten_eq, rfl, ?_, h.maxWritten_lt⟩
    exact Nat.max_le.mpr ⟨ho, RegisterFile.largestCapacity_pos⟩
  | snapshot =>
    refine ⟨h.wellFormed.snapshot, ?_, h.maxWritten_eq, h.limit_eq, h.limit_le, h.maxWritten_lt⟩
    intro index
    exact (h.wellFormed.get_snapshot index).trans (h.get_eq index)
  | clone => exact h

/-- A history keeps them together, operation by operation. -/
theorem foldl (h : journal.Describes registers) {operations : List Operation}
    (ho : ∀ operation ∈ operations, operation.Allocatable) :
    (operations.foldl Journal.record journal).Describes
      (operations.foldl (fun registers operation => (operation.run registers).2) registers) := by
  induction operations generalizing journal registers with
  | nil => exact h
  | cons operation operations ih =>
    exact ih (h.record_run (ho operation (List.mem_cons_self ..)))
      fun later hl => ho later (List.mem_cons_of_mem _ hl)

/-- On a register file with such a journal every operation stays in range in place. -/
theorem exec_action (h : journal.Describes registers) (operation : Operation) :
    operation.action.exec registers = some (operation.run registers) := by
  have hword := RegisterFile.largestCapacity_lt_size
  exact h.wellFormed.exec_action (Nat.lt_of_le_of_lt h.limit_le hword)
    (Nat.lt_of_le_of_lt h.maxWritten_lt hword) operation

end Journal.Describes

end

/-- A register file is a sparse map: after every history it holds the value last written for every
index, and it refuses a write exactly from its limit on. -/
theorem RegisterFile.sparse_history (capacity : Nat) (operations : List Operation)
    (ho : ∀ operation ∈ operations, operation.Allocatable) :
    let registers := history capacity operations
    let journal := Journal.ofList operations
    registers.maxWritten < registers.capacity ∧
      (∀ index, registers.maxWritten < index → registers.get index = 0) ∧
      (∀ index, registers.get index = journal.value index) ∧
      registers.maxWritten = journal.highest ∧
      (∀ index value, (Operation.set index value).run registers =
        if index < journal.limit then
          (.ok (), registers.write index value)
        else
          (.error (.registerLimit index journal.limit), registers)) ∧
      ∀ operation : Operation,
        operation.action.exec registers = some (operation.run registers) := by
  have h := (Journal.Describes.empty capacity).foldl ho
  refine ⟨h.wellFormed.maxWritten_lt, h.wellFormed.get_eq_zero, h.get_eq, h.maxWritten_eq, ?_,
    h.exec_action⟩
  intro index value
  exact h.limit_eq ▸ Operation.run_set h.limit_le index value

/-- Storage of one register grows past a limit that cut it before, after a limit below what is
stored refused a write and a snapshot took the rest of the storage away. -/
theorem RegisterFile.sparse_history_regrown :
    let registers := history 0 [.withLimit 6, .set 4 9, .withLimit 2, .set 4 8, .combine .div 0,
      .snapshot, .withLimit 20, .load 7, .set 11 5, .combine .mult 3]
    registers.get 4 = 9 ∧ registers.get 0 = 21 ∧ registers.get 1000 = 0 ∧
      registers.maxWritten = 11 := by
  have hbound : 20 ≤ largestCapacity := by decide
  have h := sparse_history 0 [.withLimit 6, .set 4 9, .withLimit 2, .set 4 8, .combine .div 0,
    .snapshot, .withLimit 20, .load 7, .set 11 5, .combine .mult 3]
    (by simp only [List.forall_mem_cons, Operation.Allocatable, List.not_mem_nil, false_implies,
          implies_true, and_true, true_and]
        omega)
  obtain ⟨_, _, hget, hmax, _, _⟩ := h
  exact ⟨(hget 4).trans (by decide), (hget 0).trans (by decide), (hget 1000).trans (by decide),
    hmax.trans (by decide)⟩

end RandomAccess
