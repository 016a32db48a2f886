import Mathlib.Algebra.Order.Ring.Nat
import Mathlib.Order.Bounds.Defs
import RandomAccess.Proofs.InPlace.Atomicity
import RandomAccess.Proofs.Memory.History

/-!
# The ladder of capacities

Growth climbs a ladder on which every rung is twice the one below, to the first rung above the index
that is written. The limit may cut the last rung off; a register file that has grown to its limit
never grows again, so no later growth starts from between two rungs. What is known of the capacity
after a history follows from that: it stands on the ladder or at the limit, and is small beside the
indices that were written.
-/

namespace RandomAccess

variable {base limit capacity index : Nat}

/-- A rung of the ladder that starts at `base`: the base, doubled any number of times. -/
def Rung (base rung : Nat) : Prop :=
  ∃ doublings, rung = base * 2 ^ doublings

theorem rung_self (base : Nat) : Rung base base :=
  ⟨0, by simp⟩

/-- The rungs above a rung are those of the ladder that starts there. -/
theorem Rung.trans {rung : Nat} (h : Rung base capacity) (hrung : Rung capacity rung) :
    Rung base rung := by
  obtain ⟨first, rfl⟩ := h
  obtain ⟨second, rfl⟩ := hrung
  exact ⟨first + second, by rw [pow_add, Nat.mul_assoc]⟩

theorem rung_double (base : Nat) : Rung base (2 * base) :=
  ⟨1, by omega⟩

/-- Above the base itself the rungs are those of the doubled base. -/
theorem Rung.eq_or_rung_double {rung : Nat} (h : Rung base rung) :
    rung = base ∨ Rung (2 * base) rung := by
  obtain ⟨doublings, rfl⟩ := h
  cases doublings with
  | zero => exact .inl (by simp)
  | succ doublings => exact .inr ⟨doublings, by rw [pow_succ', ← Nat.mul_assoc, Nat.mul_comm base]⟩

/-- Doubling stays on the ladder. -/
theorem rung_doubleUntil (index capacity : Nat) : Rung capacity (doubleUntil index capacity) := by
  fun_induction doubleUntil index capacity with
  | case1 capacity _ => exact rung_self capacity
  | case2 capacity _ ih => exact (rung_double capacity).trans ih

/-- Doubling passes over no rung above the index. -/
theorem doubleUntil_le_of_rung {rung : Nat} (h : Rung capacity rung) (hi : index < rung) :
    doubleUntil index capacity ≤ rung := by
  fun_induction doubleUntil index capacity with
  | case1 capacity _ =>
    obtain ⟨doublings, rfl⟩ := h
    exact Nat.le_mul_of_pos_right capacity (Nat.two_pow_pos doublings)
  | case2 capacity hc ih =>
    rcases h.eq_or_rung_double with rfl | habove
    · exact absurd (.inr hi) hc
    · exact ih habove

/-- Doubling stops at the least rung above the index. -/
theorem isLeast_doubleUntil (h : 0 < capacity) :
    IsLeast {rung | Rung capacity rung ∧ index < rung} (doubleUntil index capacity) :=
  ⟨⟨rung_doubleUntil index capacity, lt_doubleUntil h⟩,
    fun _ hrung => doubleUntil_le_of_rung hrung.1 hrung.2⟩

/-- The doubling loop ends for every index, with a capacity above it. -/
theorem InPlace.exists_doubleWhile (hc : 0 < capacity) (hi : index + 1 < UInt64.size) :
    ∃ enough, InPlace.doubleWhile (index + 1) (index + 1) capacity = some enough ∧
      index < enough := by
  by_cases hw : capacity < UInt64.size
  · refine ⟨_, doubleWhile_eq hc hw hi (by omega), ?_⟩
    have hlt : index < doubleUntil index capacity := lt_doubleUntil hc
    omega
  · exact ⟨capacity, doubleWhile_of_le (by omega) _, by omega⟩

/-- The operation puts a value into a register. -/
def Operation.Assigns : Operation → Prop
  | set _ _ | load _ | combine _ _ => True
  | withLimit _ | snapshot | clone => False

namespace RegisterFile

variable {registers : RegisterFile} {operation : Operation} {operations : List Operation}

/-- What is known of a register file that had storage for `base` registers when the limit was set,
and in which only registers have been assigned since. -/
structure Grown (base limit : Nat) (registers : RegisterFile) : Prop where
  /-- It has the shape that register files keep. -/
  wellFormed : registers.WellFormed
  /-- The limit has not been changed. -/
  limit_eq : registers.limit = max limit 1
  /-- The capacity is a rung above the base, or the limit has cut it. -/
  onLadder : Rung base registers.capacity ∨ registers.capacity = limit
  /-- Storage has grown for indices that were written, and no more than doubled for them. -/
  capacity_le : registers.capacity ≤ max base (min limit (2 * registers.maxWritten))
  /-- What was written was below the limit. -/
  maxWritten_lt : registers.maxWritten < max limit 1

theorem grown_withCapacity (hbase : 1 ≤ base) (limit : Nat) :
    ((withCapacity base).withLimit limit).Grown base limit := by
  have hcapacity : ((withCapacity base).withLimit limit).capacity = base := by
    simp only [withLimit, withCapacity, capacity, Array.size_replicate]
    omega
  have hmax : ((withCapacity base).withLimit limit).maxWritten = 0 := rfl
  refine ⟨(wellFormed_withCapacity base).withLimit limit, rfl, ?_, ?_, ?_⟩
  · rw [hcapacity]
    exact .inl (rung_self base)
  · rw [hcapacity]
    exact Nat.le_max_left base _
  · rw [hmax]
    exact Nat.lt_of_lt_of_le Nat.one_pos (Nat.le_max_right limit 1)

/-- Stored registers need no more storage. -/
theorem capacityFor_of_lt (hs : index < registers.capacity) :
    registers.capacityFor index = registers.capacity :=
  if_pos hs

/-- A register that is not stored needs the least rung above its index, cut to the limit. -/
theorem capacityFor_of_le (hs : registers.capacity ≤ index) :
    registers.capacityFor index = min (doubleUntil index registers.capacity) registers.limit :=
  if_neg (Nat.not_lt.mpr hs)

namespace Grown

/-- A register that is not stored is below the limit only as long as the limit has cut nothing. -/
theorem rung_of_le (h : registers.Grown base limit) (hs : registers.capacity ≤ index)
    (hi : index < registers.limit) : registers.limit = limit ∧ Rung base registers.capacity := by
  have hc := h.wellFormed.capacity_pos
  have hl := h.limit_eq
  refine ⟨by omega, h.onLadder.resolve_right ?_⟩
  omega

/-- A write grows along the ladder or leaves the storage alone. -/
theorem write (h : registers.Grown base limit) (hi : index < registers.limit) (value : Int64) :
    (registers.write index value).Grown base limit := by
  have hl := h.limit_eq
  have hm := h.maxWritten_lt
  have hle := h.capacity_le
  refine ⟨h.wellFormed.write value hi, hl, ?_, ?_, ?_⟩
  · rw [capacity_write value hi]
    by_cases hs : index < registers.capacity
    · rw [capacityFor_of_lt hs]
      exact h.onLadder
    · rw [capacityFor_of_le (Nat.le_of_not_lt hs)]
      obtain ⟨hlimit, hrung⟩ := h.rung_of_le (Nat.le_of_not_lt hs) hi
      rcases Nat.le_total (doubleUntil index registers.capacity) registers.limit with hd | hd
      · rw [Nat.min_eq_left hd]
        exact .inl (hrung.trans (rung_doubleUntil index registers.capacity))
      · rw [Nat.min_eq_right hd]
        exact .inr hlimit
  · rw [capacity_write value hi, maxWritten_write]
    by_cases hs : index < registers.capacity
    · rw [capacityFor_of_lt hs]
      omega
    · rw [capacityFor_of_le (Nat.le_of_not_lt hs)]
      have hd := doubleUntil_le (Nat.le_of_not_lt hs)
      have hlimit := (h.rung_of_le (Nat.le_of_not_lt hs) hi).1
      omega
  · rw [maxWritten_write]
    omega

/-- A load touches no storage but the accumulator's. -/
theorem load (h : registers.Grown base limit) (value : Int64) :
    (registers.load value).Grown base limit where
  wellFormed := h.wellFormed.load value
  limit_eq := h.limit_eq
  onLadder := by
    rw [capacity_load]
    exact h.onLadder
  capacity_le := by
    rw [capacity_load]
    exact h.capacity_le
  maxWritten_lt := h.maxWritten_lt

/-- One assignment keeps all this, and gives no storage back. -/
theorem run (h : registers.Grown base limit) (ho : operation.Assigns) :
    (operation.run registers).2.Grown base limit ∧
      registers.capacity ≤ (operation.run registers).2.capacity := by
  cases operation with
  | set index value =>
    rw [Operation.run_set_of_admits]
    by_cases ha : registers.admits index = true
    · have hi := lt_limit_of_admits ha
      rw [if_pos ha]
      refine ⟨h.write hi value, ?_⟩
      rw [capacity_write value hi]
      exact capacity_le_capacityFor hi
    · rw [if_neg ha]
      exact ⟨h, Nat.le_refl _⟩
  | load value => exact ⟨h.load value, Nat.le_of_eq (capacity_load value).symm⟩
  | combine op value =>
    simp only [Operation.run, Operation.apply, RegisterFile.combine]
    cases op.apply registers.accumulator value with
    | error fault => exact ⟨h, Nat.le_refl _⟩
    | ok result => exact ⟨h.load result, Nat.le_of_eq (capacity_load result).symm⟩
  | withLimit limit => cases ho
  | snapshot => cases ho
  | clone => cases ho

/-- A history of assignments keeps it, operation by operation. -/
theorem foldl (h : registers.Grown base limit)
    (ho : ∀ operation ∈ operations, operation.Assigns) :
    let after := operations.foldl (fun registers operation => (operation.run registers).2) registers
    after.Grown base limit ∧ registers.capacity ≤ after.capacity := by
  induction operations generalizing registers with
  | nil => exact ⟨h, Nat.le_refl _⟩
  | cons operation operations ih =>
    obtain ⟨hfirst, hle⟩ := h.run (ho operation (List.mem_cons_self ..))
    obtain ⟨hlast, hrest⟩ := ih hfirst fun later hl => ho later (List.mem_cons_of_mem _ hl)
    exact ⟨hlast, Nat.le_trans hle hrest⟩

/-- A write past the limit is refused. -/
theorem run_set_past (h : registers.Grown base limit) (hi : max limit 1 ≤ index) (value : Int64) :
    (Operation.set index value).run registers =
      (.error (.registerLimit index (max limit 1)), registers) := by
  rw [← h.limit_eq] at hi ⊢
  rw [Operation.run_set_of_admits, if_neg fun ha => absurd (lt_limit_of_admits ha) (by omega)]

/-- A write to a stored register leaves the storage alone. -/
theorem run_set_stored (h : registers.Grown base limit) (hi : index < max limit 1)
    (hs : index < registers.capacity) (value : Int64) :
    ((Operation.set index value).run registers).1 = .ok () ∧
      ((Operation.set index value).run registers).2.capacity = registers.capacity := by
  rw [← h.limit_eq] at hi
  have ha : registers.admits index = true := by simp [admits, hi, hs]
  rw [Operation.run_set_of_admits, if_pos ha]
  exact ⟨rfl, (capacity_write value hi).trans (capacityFor_of_lt hs)⟩

/-- A write to a register that is not stored makes the storage grow to the least rung above its
index, cut to the limit, if that much can be had. -/
theorem run_set_grows (h : registers.Grown base limit) (hi : index < max limit 1)
    (hs : registers.capacity ≤ index) (value : Int64) :
    ∃ rung, IsLeast {rung | Rung registers.capacity rung ∧ index < rung} rung ∧
      if min rung limit ≤ largestCapacity then
        ((Operation.set index value).run registers).1 = .ok () ∧
          ((Operation.set index value).run registers).2.capacity = min rung limit
      else
        (Operation.set index value).run registers =
          (.error (.registerLimit index (max limit 1)), registers) := by
  rw [← h.limit_eq] at hi ⊢
  refine ⟨_, isLeast_doubleUntil h.wellFormed.capacity_pos, ?_⟩
  rw [Operation.run_set_of_admits, ← (h.rung_of_le hs hi).1, ← capacityFor_of_le hs]
  have ha : registers.admits index = true ↔ registers.capacityFor index ≤ largestCapacity := by
    simp [admits, hi, Nat.not_lt.mpr hs]
  by_cases hhad : registers.capacityFor index ≤ largestCapacity
  · rw [if_pos hhad, if_pos (ha.mpr hhad)]
    exact ⟨rfl, capacity_write value hi⟩
  · rw [if_neg hhad, if_neg fun hadmits => hhad (ha.mp hadmits)]

end Grown

/-- Growth is bounded and stays on the ladder of doublings: a write to a register that is not stored
leaves the least rung above its index, cut to the limit. -/
theorem growth_on_ladder (capacity limit : Nat) (operations : List Operation)
    (hcapacity : 1 ≤ capacity) (hlimit : limit < UInt64.size)
    (hassigns : ∀ operation ∈ operations, operation.Assigns) :
    let after (done : List Operation) := history capacity (.withLimit limit :: done)
    let registers := after operations
    (∀ done, done <+: operations → (after done).capacity ≤ registers.capacity) ∧
      (Rung capacity registers.capacity ∨ registers.capacity = limit) ∧
      registers.capacity ≤ max capacity (min limit (2 * registers.maxWritten)) ∧
      (∀ index, index + 1 < UInt64.size →
        ∃ enough, InPlace.doubleWhile (index + 1) (index + 1) registers.capacity = some enough ∧
          index < enough) ∧
      (∀ index value,
        let answered := (Operation.set index value).run registers
        let refused := (Except.error (Fault.registerLimit index (max limit 1)), registers)
        (max limit 1 ≤ index → answered = refused) ∧
          (index < max limit 1 → index < registers.capacity →
            answered.1 = .ok () ∧ answered.2.capacity = registers.capacity) ∧
          (index < max limit 1 → registers.capacity ≤ index →
            ∃ rung, IsLeast {rung | Rung registers.capacity rung ∧ index < rung} rung ∧
              if min rung limit ≤ largestCapacity then
                answered.1 = .ok () ∧ answered.2.capacity = min rung limit
              else answered = refused)) ∧
      (∀ operation : Operation,
        operation.action.exec registers = some (operation.run registers)) ∧
      (∀ index, (InPlace.cell index).ReadOnly) ∧ InPlace.snapshot.ReadOnly ∧
      ∀ operand, (InPlace.resolve operand).ReadOnly := by
  intro after registers
  have hfirst := grown_withCapacity hcapacity limit
  have hgrown : registers.Grown capacity limit := (hfirst.foldl hassigns).1
  have hm := hgrown.maxWritten_lt
  have hl := hgrown.limit_eq
  have hone : 1 < UInt64.size := by decide
  refine ⟨?_, hgrown.onLadder, hgrown.capacity_le,
    fun index => InPlace.exists_doubleWhile hgrown.wellFormed.capacity_pos, fun index value => ?_,
    hgrown.wellFormed.exec_action (by omega) (by omega), InPlace.readOnly_cell,
    InPlace.readOnly_snapshot, InPlace.readOnly_resolve⟩
  · rintro done ⟨rest, rfl⟩
    have hdone := (hfirst.foldl fun operation hmem =>
      hassigns operation (List.mem_append_left rest hmem)).1
    have hrest := (hdone.foldl fun operation hmem =>
      hassigns operation (List.mem_append_right done hmem)).2
    rwa [← List.foldl_append] at hrest
  · exact ⟨fun hi => hgrown.run_set_past hi value, fun hi hs => hgrown.run_set_stored hi hs value,
      fun hi hs => hgrown.run_set_grows hi hs value⟩

/-- From three registers storage grows to six, and then to twice twelve but for the limit of twenty.
It stays there: a write to the last register below the limit finds it at hand, and the next one is
refused. -/
theorem growth_on_ladder_cut :
    let operations : List Operation := [.set 4 9, .load 7, .combine .mult 3, .set 13 5]
    let registers := history 3 (.withLimit 20 :: operations)
    (∀ operation ∈ operations, operation.Assigns) ∧
      (history 3 [.withLimit 20, .set 4 9]).capacity ≤ registers.capacity ∧
      (Rung 3 registers.capacity ∨ registers.capacity = 20) ∧
      registers.capacity ≤ max 3 (min 20 (2 * registers.maxWritten)) ∧
      registers.capacity = 20 ∧
      ((Operation.set 19 1).run registers).2.capacity = 20 ∧
      (Operation.set 20 1).run registers = (.error (.registerLimit 20 20), registers) := by
  intro operations registers
  have hassigns : ∀ operation ∈ operations, operation.Assigns := by
    simp [operations, Operation.Assigns]
  have hfull : registers.capacity = 20 := by decide +kernel
  obtain ⟨hgrows, hladder, hbound, -, hset, -⟩ :=
    growth_on_ladder 3 20 operations (by decide) (by decide) hassigns
  have hlast := ((hset 19 1).2.1 (by decide) (Nat.lt_of_lt_of_eq (by decide) hfull.symm)).2
  exact ⟨hassigns, hgrows [.set 4 9] ⟨_, rfl⟩, hladder, hbound, hfull, hlast.trans hfull,
    (hset 20 1).1 (by decide)⟩

end RegisterFile

end RandomAccess
