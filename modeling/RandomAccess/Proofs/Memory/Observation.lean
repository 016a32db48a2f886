import RandomAccess.Proofs.Memory.Equality
import RandomAccess.Proofs.Memory.History
import RandomAccess.Proofs.Text.Decimal

/-!
# What can be seen of a register file

Equality looks through all the storage that either of two register files has. Their lists of
registers, their texts and their snapshots go no further than the highest index written. They agree
nevertheless, since what is stored past that index is 0 after every history. So equal register files
cannot be told apart by reading them, nor by an operation on both if they have the same limit.
-/

namespace RandomAccess

namespace RegisterFile

variable {a b : RegisterFile}

/-- The list of registers goes up to the highest index written. -/
theorem WellFormed.used_eq_map_get (h : a.WellFormed) :
    a.used = (List.range (a.maxWritten + 1)).map a.get := by
  have hm := h.maxWritten_lt
  simp only [capacity] at hm
  refine List.ext_getElem (by simp [used]; omega) fun index hused hrange => ?_
  rw [List.length_map, List.length_range] at hrange
  have hstored : index < a.cells.size := by omega
  simp [used, get, hstored]

/-- Equal lists of registers have the same length, so the same highest index was written, and they
say what every register up to it holds. -/
theorem WellFormed.beq_iff_used_eq (ha : a.WellFormed) (hb : b.WellFormed) :
    (a == b) = true ↔ a.used = b.used := by
  rw [ha.used_eq_map_get, hb.used_eq_map_get, beq_iff]
  constructor
  · rintro ⟨hmax, hget⟩
    rw [hmax, funext hget]
  · intro hused
    have hmax : a.maxWritten = b.maxWritten := by
      have hlength := congrArg List.length hused
      simpa using hlength
    refine ⟨hmax, fun index => ?_⟩
    by_cases hi : index ≤ a.maxWritten
    · rw [← hmax, List.map_inj_left] at hused
      exact hused index (List.mem_range.mpr (by omega))
    · rw [ha.get_eq_zero index (by omega), hb.get_eq_zero index (by omega)]

/-- The text of a register file tells its list of registers. -/
theorem text_eq_iff_used_eq : a.text = b.text ↔ a.used = b.used :=
  Text.bracketed_inj

/-- Equality is an equivalence, also of register files that no history leads to. -/
theorem equivalence_beq : Equivalence fun a b : RegisterFile => (a == b) = true where
  refl a := beq_iff.mpr ⟨rfl, fun _ => rfl⟩
  symm h := by
    obtain ⟨hmax, hget⟩ := beq_iff.mp h
    exact beq_iff.mpr ⟨hmax.symm, fun index => (hget index).symm⟩
  trans h hnext := by
    obtain ⟨hmax, hget⟩ := beq_iff.mp h
    obtain ⟨hmaxNext, hgetNext⟩ := beq_iff.mp hnext
    exact beq_iff.mpr ⟨hmax.trans hmaxNext, fun index => (hget index).trans (hgetNext index)⟩

/-- A snapshot equals what it was taken of. -/
theorem WellFormed.snapshot_beq (h : a.WellFormed) : (a.snapshot == a) = true :=
  beq_iff.mpr ⟨rfl, h.get_snapshot⟩

/-- A snapshot is its own snapshot, down to its storage. -/
@[simp] theorem snapshot_snapshot : a.snapshot.snapshot = a.snapshot := by
  simp [snapshot, Array.take_eq_extract]

/-- Under one limit up to which storage can be had, an operation on equal register files has the
same answer and leaves equal ones, again under one limit. -/
theorem run_congr (h : (a == b) = true) (ha : a.WellFormed) (hb : b.WellFormed)
    (hlimit : a.limit = b.limit) (hl : a.limit ≤ largestCapacity) (operation : Operation) :
    (operation.run a).1 = (operation.run b).1 ∧
      ((operation.run a).2 == (operation.run b).2) = true ∧
      (operation.run a).2.limit = (operation.run b).2.limit := by
  cases operation with
  | set index value =>
    rw [Operation.run_set hl, Operation.run_set (hlimit ▸ hl), hlimit]
    by_cases hi : index < b.limit
    · rw [if_pos hi, if_pos hi]
      exact ⟨rfl, beq_write h ha hb value (hlimit ▸ hi) hi, hlimit⟩
    · rw [if_neg hi, if_neg hi]
      exact ⟨rfl, h, hlimit⟩
  | load value => exact ⟨rfl, beq_load h ha hb value, hlimit⟩
  | combine op value =>
    have haccumulator : a.accumulator = b.accumulator := (beq_iff.mp h).2 0
    simp only [Operation.run, Operation.apply, combine, haccumulator]
    cases op.apply b.accumulator value with
    | error fault => exact ⟨rfl, h, hlimit⟩
    | ok result => exact ⟨rfl, beq_load h ha hb result, hlimit⟩
  | withLimit limit => exact ⟨rfl, beq_iff.mpr (beq_iff.mp h), rfl⟩
  | snapshot => exact ⟨rfl, beq_snapshot h ha hb, hlimit⟩
  | clone => exact ⟨rfl, h, hlimit⟩

/-- Equality of register files is what can be seen of them: the same highest index and the same
value of every register. Under one limit equal ones answer every operation alike. -/
theorem equality_is_observational (capacity other : Nat) (operations others : List Operation) :
    let a := history capacity operations
    let b := history other others
    ((a == b) = true ↔ a.maxWritten = b.maxWritten ∧ ∀ index, a.get index = b.get index) ∧
      ((a == b) = true ↔ a.used = b.used) ∧
      ((a == b) = true ↔ a.text = b.text) ∧
      (Equivalence fun first second : RegisterFile => (first == second) = true) ∧
      ((a.snapshot == a) = true ∧ a.snapshot.capacity = a.maxWritten + 1 ∧
        a.snapshot.limit = a.limit ∧ a.snapshot.snapshot = a.snapshot) ∧
      ((a == b) = true →
        (∀ operand : Operand, operand.resolve a = operand.resolve b) ∧
        (∀ model instruction,
          Cost.weight model instruction a = Cost.weight model instruction b) ∧
        (a.limit = b.limit → a.limit ≤ largestCapacity → ∀ operation : Operation,
          (operation.run a).1 = (operation.run b).1 ∧
            ((operation.run a).2 == (operation.run b).2) = true ∧
            (operation.run a).2.limit = (operation.run b).2.limit)) := by
  intro a b
  have ha : a.WellFormed := wellFormed_history capacity operations
  have hb : b.WellFormed := wellFormed_history other others
  have hused := ha.beq_iff_used_eq hb
  refine ⟨beq_iff, hused, hused.trans text_eq_iff_used_eq.symm, equivalence_beq,
    ⟨ha.snapshot_beq, ha.capacity_snapshot, rfl, snapshot_snapshot⟩, fun h => ?_⟩
  have hget := (beq_iff.mp h).2
  exact ⟨fun operand => operand.resolve_congr hget,
    fun model instruction => Cost.weight_congr hget model instruction,
    fun hlimit hl operation => run_congr h ha hb hlimit hl operation⟩

/-- One register file has grown to 8 registers and the other has 64 from the start; they were
filled by different operations. A write makes the one grow again, up to its limit, and is at hand in
the other: the answers and what they leave are the same. -/
theorem equality_is_observational_regrown :
    let a := history 2 [.withLimit 40, .set 5 3, .load (-1)]
    let b := history 64 [.set 5 3, .load 4, .combine .sub 5, .withLimit 40]
    a.capacity = 8 ∧ b.capacity = 64 ∧ a.text = b.text ∧ (a == b) = true ∧
      ((Operation.set 39 7).run a).1 = ((Operation.set 39 7).run b).1 ∧
      (((Operation.set 39 7).run a).2 == ((Operation.set 39 7).run b).2) = true := by
  intro a b
  have hfacts : a.capacity = 8 ∧ b.capacity = 64 ∧ a.used = b.used ∧ a.limit = b.limit ∧
      a.limit ≤ largestCapacity := by decide +kernel
  obtain ⟨hsmall, hlarge, hlisted, hlimit, hl⟩ := hfacts
  obtain ⟨-, hused, htext, -, -, halike⟩ := equality_is_observational 2 64
    [.withLimit 40, .set 5 3, .load (-1)] [.set 5 3, .load 4, .combine .sub 5, .withLimit 40]
  have hequal := hused.mpr hlisted
  obtain ⟨-, -, hrun⟩ := halike hequal
  obtain ⟨hanswer, hleft, -⟩ := hrun hlimit hl (.set 39 7)
  exact ⟨hsmall, hlarge, htext.mp hequal, hequal, hanswer, hleft⟩

end RegisterFile

end RandomAccess
