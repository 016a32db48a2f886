import RandomAccess.Memory.RegisterFile

/-!
# Stored registers

The shape that every register file keeps: the highest index written is stored, and all that is
stored past it is 0. Under it a write, a load and a snapshot are described by the registers alone,
whatever growth they go through. No bound on the initial capacity is assumed.
-/

namespace RandomAccess

namespace RegisterFile

/-- The highest index written is stored, nothing is left past it, and register 0 is addressable. -/
structure WellFormed (registers : RegisterFile) : Prop where
  /-- The accumulator and every register written have a stored cell. -/
  maxWritten_lt : registers.maxWritten < registers.capacity
  /-- A register above the highest index written was never changed. -/
  get_eq_zero : ∀ index, registers.maxWritten < index → registers.get index = 0
  /-- A limit of 0 does not occur. -/
  limit_pos : 0 < registers.limit

/-- Storage can be had for a register at least. -/
theorem largestCapacity_pos : 0 < largestCapacity := by
  decide

/-- Capacities that can be had are machine words. -/
theorem largestCapacity_lt_size : largestCapacity < UInt64.size := by
  decide

variable {registers : RegisterFile} {index : Nat}

theorem WellFormed.capacity_pos (h : registers.WellFormed) : 0 < registers.capacity :=
  Nat.zero_lt_of_lt h.maxWritten_lt

/-- A write is admitted below the limit if storage up to the limit can be had. -/
theorem admits_iff_lt (hl : registers.limit ≤ largestCapacity) :
    registers.admits index = true ↔ index < registers.limit := by
  simp only [admits, Bool.and_eq_true, Bool.or_eq_true, decide_eq_true_eq]
  constructor
  · exact fun h => h.1
  · intro hi
    refine ⟨hi, ?_⟩
    by_cases hc : index < registers.capacity
    · exact Or.inl hc
    · right
      rw [capacityFor, if_neg hc]
      exact Nat.le_trans (Nat.min_le_right _ _) hl

/-- An admitted index is below the limit. -/
theorem lt_limit_of_admits (h : registers.admits index = true) : index < registers.limit := by
  simp only [admits, Bool.and_eq_true, decide_eq_true_eq] at h
  exact h.1

/-- The storage for an index below the limit reaches past that index. -/
theorem lt_capacityFor (hc : 0 < registers.capacity) (hi : index < registers.limit) :
    index < registers.capacityFor index := by
  unfold capacityFor
  split
  · assumption
  · exact Nat.lt_min.mpr ⟨lt_doubleUntil hc, hi⟩

/-- A write to an index below the limit never gives storage back. -/
theorem capacity_le_capacityFor (hi : index < registers.limit) :
    registers.capacity ≤ registers.capacityFor index := by
  unfold capacityFor
  split
  · exact Nat.le_refl _
  · have hd := le_doubleUntil index registers.capacity
    omega

/-- A write leaves exactly the storage foreseen for its index. -/
theorem capacity_write (value : Int64) (hi : index < registers.limit) :
    (registers.write index value).capacity = registers.capacityFor index := by
  have hc := capacity_le_capacityFor hi
  simp only [capacity, write, Array.size_setIfInBounds, Array.size_append,
    Array.size_replicate] at hc ⊢
  omega

/-- The storage for an admitted index is at hand or can be had. -/
theorem capacityFor_le_of_admits (h : registers.admits index = true)
    (hc : registers.capacity ≤ largestCapacity) :
    registers.capacityFor index ≤ largestCapacity := by
  simp only [admits, Bool.and_eq_true, Bool.or_eq_true, decide_eq_true_eq] at h
  rcases h.2 with hs | hle
  · rwa [capacityFor, if_pos hs]
  · exact hle

@[simp] theorem maxWritten_write (value : Int64) :
    (registers.write index value).maxWritten = max registers.maxWritten index := rfl

@[simp] theorem limit_write (value : Int64) :
    (registers.write index value).limit = registers.limit := rfl

/-- A write changes its own register and no other, stored or not. -/
theorem get_write (value : Int64) (hc : 0 < registers.capacity) (hi : index < registers.limit)
    (other : Nat) :
    (registers.write index value).get other =
      if other = index then value else registers.get other := by
  have hroom :
      index < registers.cells.size + (registers.capacityFor index - registers.capacity) := by
    have hlt := lt_capacityFor hc hi
    simp only [capacity] at hlt ⊢
    omega
  simp only [get, write, Array.getD_eq_getD_getElem?, Array.getElem?_setIfInBounds,
    Array.size_append, Array.size_replicate, hroom, if_true]
  by_cases he : other = index
  · simp [he]
  · rw [if_neg (Ne.symm he), if_neg he, Array.getElem?_append]
    split
    · rfl
    · next hs =>
      rw [Array.getElem?_eq_none (Nat.le_of_not_lt hs), Array.getElem?_replicate]
      split <;> rfl

/-- The register that is written holds the value. -/
theorem get_write_self (value : Int64) (hc : 0 < registers.capacity)
    (hi : index < registers.limit) : (registers.write index value).get index = value := by
  rw [get_write value hc hi, if_pos rfl]

@[simp] theorem capacity_load (value : Int64) :
    (registers.load value).capacity = registers.capacity := by
  simp [capacity, load]

@[simp] theorem maxWritten_load (value : Int64) :
    (registers.load value).maxWritten = registers.maxWritten := rfl

@[simp] theorem limit_load (value : Int64) : (registers.load value).limit = registers.limit := rfl

/-- A load changes register 0 and no other. -/
theorem get_load (value : Int64) (hc : 0 < registers.capacity) (other : Nat) :
    (registers.load value).get other = if other = 0 then value else registers.get other := by
  simp only [capacity] at hc
  simp only [get, load, Array.getD_eq_getD_getElem?, Array.getElem?_setIfInBounds, hc, if_true]
  by_cases he : other = 0
  · simp [he]
  · simp [he, Ne.symm he]

/-- A snapshot stores the registers up to the highest index written. -/
theorem WellFormed.capacity_snapshot (h : registers.WellFormed) :
    registers.snapshot.capacity = registers.maxWritten + 1 := by
  have hm := h.maxWritten_lt
  simp only [capacity] at hm
  simp only [capacity, snapshot, Array.take_eq_extract, Array.size_extract]
  omega

/-- A snapshot holds the same registers, whether they are stored in it or not. -/
theorem WellFormed.get_snapshot (h : registers.WellFormed) (other : Nat) :
    registers.snapshot.get other = registers.get other := by
  by_cases ho : registers.maxWritten < other
  · rw [h.get_eq_zero other ho]
    exact get_eq_zero_of_capacity_le (by rw [h.capacity_snapshot]; omega)
  · have hm := h.maxWritten_lt
    simp only [capacity] at hm
    simp only [get, snapshot, Array.take_eq_extract, Array.getD_eq_getD_getElem?,
      Array.getElem?_extract]
    rw [if_pos (by omega), Nat.zero_add]

theorem wellFormed_withCapacity (capacity : Nat) : (withCapacity capacity).WellFormed where
  maxWritten_lt := by
    simp only [withCapacity, RegisterFile.capacity, Array.size_replicate]
    omega
  get_eq_zero := fun other _ => get_withCapacity capacity other
  limit_pos := by
    change 0 < defaultLimit
    decide

/-- A limit may be set below what is stored: nothing that is stored goes away. -/
theorem WellFormed.withLimit (h : registers.WellFormed) (limit : Nat) :
    (registers.withLimit limit).WellFormed where
  maxWritten_lt := h.maxWritten_lt
  get_eq_zero := h.get_eq_zero
  limit_pos := by
    simp only [RegisterFile.withLimit]
    omega

theorem WellFormed.write (h : registers.WellFormed) (value : Int64)
    (hi : index < registers.limit) : (registers.write index value).WellFormed where
  maxWritten_lt := by
    have hm := h.maxWritten_lt
    have hlt := lt_capacityFor h.capacity_pos hi
    have hle := capacity_le_capacityFor hi
    rw [capacity_write value hi, maxWritten_write]
    omega
  get_eq_zero := by
    intro other ho
    rw [maxWritten_write] at ho
    rw [get_write value h.capacity_pos hi, if_neg (by omega)]
    exact h.get_eq_zero other (by omega)
  limit_pos := h.limit_pos

theorem WellFormed.load (h : registers.WellFormed) (value : Int64) :
    (registers.load value).WellFormed where
  maxWritten_lt := by simpa using h.maxWritten_lt
  get_eq_zero := by
    intro other ho
    rw [maxWritten_load] at ho
    rw [get_load value h.capacity_pos, if_neg (by omega)]
    exact h.get_eq_zero other ho
  limit_pos := h.limit_pos

theorem WellFormed.snapshot (h : registers.WellFormed) : registers.snapshot.WellFormed where
  maxWritten_lt := by
    rw [h.capacity_snapshot]
    exact Nat.lt_succ_self _
  get_eq_zero := by
    intro other ho
    rw [h.get_snapshot]
    exact h.get_eq_zero other ho
  limit_pos := h.limit_pos

end RegisterFile

end RandomAccess
