import RandomAccess.Cost.Weight
import RandomAccess.Proofs.Memory.Storage

/-!
# Equal register files

Register files that hold the same registers give every operand the same value and every
instruction the same weight. Equal ones stay equal under the same write, the same load and a
snapshot, whatever storage each of them has.
-/

namespace RandomAccess

/-- What an operand resolves to depends on the registers alone. -/
theorem Operand.resolve_congr {a b : RegisterFile} (h : ∀ index, a.get index = b.get index)
    (operand : Operand) : operand.resolve a = operand.resolve b := by
  cases operand with
  | literal value => rfl
  | direct address | indirect address => simp only [resolve, h]

/-- What an instruction weighs depends on the registers alone. -/
theorem Cost.weight_congr {a b : RegisterFile} (h : ∀ index, a.get index = b.get index)
    (model : Model) (instruction : Instruction) :
    weight model instruction a = weight model instruction b := by
  have hoperand (operand : Operand) : operandWeight a operand = operandWeight b operand := by
    cases operand with
    | literal value => rfl
    | direct address | indirect address => simp only [operandWeight, reached, h]
  simp only [weight, hoperand]

namespace RegisterFile

variable {a b : RegisterFile} {index : Nat}

/-- Equal register files stay equal under the same write below both limits. -/
theorem beq_write (h : (a == b) = true) (ha : a.WellFormed) (hb : b.WellFormed) (value : Int64)
    (hia : index < a.limit) (hib : index < b.limit) :
    (a.write index value == b.write index value) = true := by
  obtain ⟨hmax, hget⟩ := beq_iff.mp h
  refine beq_iff.mpr ⟨?_, fun other => ?_⟩
  · rw [maxWritten_write, maxWritten_write, hmax]
  · rw [get_write value ha.capacity_pos hia, get_write value hb.capacity_pos hib, hget]

/-- Equal register files stay equal under the same load. -/
theorem beq_load (h : (a == b) = true) (ha : a.WellFormed) (hb : b.WellFormed) (value : Int64) :
    (a.load value == b.load value) = true := by
  obtain ⟨hmax, hget⟩ := beq_iff.mp h
  refine beq_iff.mpr ⟨hmax, fun other => ?_⟩
  rw [get_load value ha.capacity_pos, get_load value hb.capacity_pos, hget]

/-- Equal register files have equal snapshots. -/
theorem beq_snapshot (h : (a == b) = true) (ha : a.WellFormed) (hb : b.WellFormed) :
    (a.snapshot == b.snapshot) = true := by
  obtain ⟨hmax, hget⟩ := beq_iff.mp h
  refine beq_iff.mpr ⟨hmax, fun other => ?_⟩
  rw [ha.get_snapshot, hb.get_snapshot, hget]

end RegisterFile

end RandomAccess
