import RandomAccess.Instruction.Basic

/-!
# Programs

A program is a sequence of instructions at the positions 1, 2, 3, …. Its listing has a line for
each of them.
-/

namespace RandomAccess

/-- The instructions in order. -/
structure Program where
  /-- The instruction at position 1 comes first. -/
  instructions : Array Instruction
  deriving DecidableEq, Repr, Inhabited

namespace Program

/-- The program with the listed instructions. -/
def ofList (instructions : List Instruction) : Program :=
  ⟨instructions.toArray⟩

/-- The number of instructions. -/
def size (program : Program) : Nat :=
  program.instructions.size

/-- The instruction at a position, if there is one. -/
def get? (program : Program) (position : Nat) : Option Instruction :=
  if position = 0 then none else program.instructions[position - 1]?

/-- The instruction to be executed at a position. -/
def fetch (program : Program) (position : Nat) : Except Fault Instruction :=
  match program.get? position with
  | some instruction => .ok instruction
  | none => .error (.invalidProgramCounter position program.size)

/-- The instructions with their positions. -/
def entries (program : Program) : List (Nat × Instruction) :=
  (program.instructions.toList.zipIdx 1).map fun (instruction, position) => (position, instruction)

/-- A line of a listing. -/
def line (position : Nat) (instruction : Instruction) : String :=
  Text.alignRight 4 position.repr ++ ": " ++ instruction.text ++ "\n"

/-- The text of a program. -/
def listing (program : Program) : String :=
  String.join (program.entries.map fun (position, instruction) => line position instruction)

section

variable {program : Program} {position : Nat} {instruction : Instruction}

/-- The positions of a program are those from 1 to its size. -/
theorem isSome_get?_iff :
    (program.get? position).isSome = true ↔ 1 ≤ position ∧ position ≤ program.size := by
  unfold get? size
  split
  · simp_all
  · simp only [Option.isSome_iff_ne_none, ne_eq, Array.getElem?_eq_none_iff]
    omega

/-- No instruction stands outside of the positions from 1 to the size. -/
theorem get?_eq_none_iff :
    program.get? position = none ↔ position = 0 ∨ program.size < position := by
  rw [← Option.not_isSome_iff_eq_none, isSome_get?_iff]
  omega

/-- A position with an instruction is one of the program's. -/
theorem le_size_of_get? (h : program.get? position = some instruction) :
    1 ≤ position ∧ position ≤ program.size :=
  isSome_get?_iff.mp (h ▸ rfl)

/-- An instruction at a position is one of the program's. -/
theorem mem_of_get? (h : program.get? position = some instruction) :
    instruction ∈ program.instructions := by
  unfold get? at h
  split at h
  · cases h
  · exact Array.mem_of_getElem? h

/-- A program is told by what stands at its positions. -/
theorem ext_get? {other : Program}
    (h : ∀ position, program.get? position = other.get? position) : program = other := by
  obtain ⟨instructions⟩ := program
  obtain ⟨others⟩ := other
  congr 1
  apply Array.ext_getElem?
  intro index
  have hnext := h (index + 1)
  simpa only [get?, Nat.succ_ne_zero, if_false, Nat.add_sub_cancel] using hnext

/-- What is fetched for execution is what stands at the position. -/
theorem fetch_of_get? (h : program.get? position = some instruction) :
    program.fetch position = .ok instruction := by
  rw [fetch, h]

/-- Where no instruction stands, the position and the size of the program are reported. -/
theorem fetch_of_get?_eq_none (h : program.get? position = none) :
    program.fetch position = .error (.invalidProgramCounter position program.size) := by
  rw [fetch, h]

/-- The entry at an index is the instruction at the next position. -/
theorem getElem?_entries (program : Program) (index : Nat) :
    program.entries[index]? =
      (program.get? (index + 1)).map fun instruction => (index + 1, instruction) := by
  simp only [entries, get?, List.getElem?_map, List.getElem?_zipIdx, Array.getElem?_toList,
    Nat.succ_ne_zero, if_false, Nat.add_sub_cancel, Option.map_map, Nat.add_comm 1 index]
  rfl

/-- The entries are the positions, each with the instruction that stands there. -/
theorem mem_entries_iff :
    (position, instruction) ∈ program.entries ↔ program.get? position = some instruction := by
  simp only [entries, List.mem_map, Prod.exists, Prod.mk.injEq, get?]
  constructor
  · rintro ⟨found, index, hmem, rfl, rfl⟩
    obtain ⟨hpos, hget⟩ := List.mk_mem_zipIdx_iff_le_and_getElem?_sub.mp hmem
    rw [if_neg (Nat.ne_of_gt hpos), ← Array.getElem?_toList]
    exact hget
  · intro h
    split at h
    · cases h
    · next hpos =>
      rw [← Array.getElem?_toList] at h
      exact ⟨instruction, position, List.mk_mem_zipIdx_iff_le_and_getElem?_sub.mpr
        ⟨Nat.pos_of_ne_zero hpos, h⟩, rfl, rfl⟩

end

end Program

end RandomAccess
