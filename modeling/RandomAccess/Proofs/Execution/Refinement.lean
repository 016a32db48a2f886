import RandomAccess.Proofs.Execution.Abstract
import RandomAccess.Proofs.Memory.History

/-!
# Refinement of the abstract machine

Every step is a step of the abstract machine, and every step of the abstract machine is made. The
only thing asked of the storage is that it could be had up to the limit; how far it has grown, and
how it came to its present registers, cannot be seen.
-/

namespace RandomAccess

/-- The representable numbers are those of values. -/
theorem Ram.representable_iff {number : Int} :
    Representable number ↔ ∃ value : Int64, value.toInt = number := by
  unfold Representable
  constructor
  · intro h
    refine ⟨Int64.ofInt number, Int64.toInt_ofInt_of_le ?_ ?_⟩ <;> omega
  · rintro ⟨value, rfl⟩
    have hmin := value.minValue_le_toInt
    have hmax := value.toInt_le
    rw [Int64.toInt_minValue] at hmin
    rw [Int64.toInt_maxValue] at hmax
    exact ⟨by omega, by omega⟩

/-- The rest of a division is left by one quotient only, and by none if the divisor is 0. -/
theorem Ram.computes_div_iff {left right number : Int} :
    Computes .div left right number ↔ right ≠ 0 ∧ number = left.tdiv right := by
  constructor
  · rintro ⟨rest, hleft, hsmall, hnonneg, hnonpos⟩
    have hright : right ≠ 0 := by
      rintro rfl
      exact Nat.not_lt_zero _ hsmall
    refine ⟨hright, ?_⟩
    rcases Int.le_total 0 left with h | h
    · have hrest := hnonneg h
      exact ((Int.tdiv_tmod_unique h hright).mpr ⟨by omega, hrest, by omega⟩).1.symm
    · have hrest := hnonpos h
      exact ((Int.tdiv_tmod_unique' h hright).mpr ⟨by omega, by omega, hrest⟩).1.symm
  · rintro ⟨hright, rfl⟩
    refine ⟨left.tmod right, (Int.mul_tdiv_add_tmod left right).symm, ?_,
      fun h => Int.tmod_nonneg right h, fun h => ?_⟩
    · rw [Int.natAbs_tmod]
      exact Nat.mod_lt _ (Int.natAbs_pos.mpr hright)
    · have hneg := Int.tmod_nonneg right (Int.neg_nonneg_of_nonpos h)
      rw [Int.neg_tmod] at hneg
      omega

namespace ArithOp

variable {op : ArithOp} {left right : Int64}

/-- Arithmetic succeeds with the value that equals the exact result. -/
theorem apply_eq_ok_iff {value : Int64} :
    op.apply left right = .ok value ↔
      Ram.Computes op left.toInt right.toInt value.toInt := by
  cases op with
  | add | sub | mult => exact checked_eq_ok_iff
  | div =>
    rw [apply, Ram.computes_div_iff, ne_eq, ← Int64.toInt_zero, Int64.toInt_inj]
    by_cases hzero : right = 0
    · simp [hzero]
    · simp only [hzero, if_false, not_false_eq_true, true_and, checked_eq_ok_iff]

/-- The rest of a negative dividend is negative. -/
example : div.apply (-7) 2 = .ok (-3) := rfl

/-- Arithmetic fails on a divisor of 0 and on a result out of range. The overflow carries the name
under which the instruction is listed. -/
theorem apply_eq_error_iff (operand : Operand) {fault : Fault} :
    op.apply left right = .error fault ↔
      op = .div ∧ right = 0 ∧ fault = .divisionByZero ∨
        ∃ number, Ram.Computes op left.toInt right.toInt number ∧ ¬ Ram.Representable number ∧
          fault = .arithmeticOverflow (Instruction.arith op operand).mnemonic := by
  cases op with
  | add | sub | mult =>
    simp [apply, checked_eq_error_iff, Ram.Computes, Ram.representable_iff, Instruction.mnemonic]
  | div =>
    simp only [Ram.computes_div_iff, ne_eq, ← Int64.toInt_zero, Int64.toInt_inj]
    by_cases hzero : right = 0
    · simp [apply, hzero, eq_comm]
    · simp [apply, checked_eq_error_iff, Ram.representable_iff, Instruction.mnemonic, hzero]

end ArithOp

theorem Condition.holds_iff {condition : Condition} {value : Int64} :
    condition.Holds value.toInt ↔ condition.holds value = true := by
  cases condition with
  | zero => simp [Holds, holds, ← Int64.toInt_inj]
  | positive => simp [Holds, holds, Int64.lt_iff_toInt_lt]

namespace State

variable {state : State}

/-- An operand has a value in the abstract machine exactly if it resolves to it. -/
theorem ram_value?_eq_some_iff {operand : Operand} {number : Int} :
    state.ram.value? operand = some number ↔
      ∃ value, operand.resolve state.registers = .ok value ∧ value.toInt = number := by
  cases operand with
  | literal value => simp [Ram.value?, Operand.resolve]
  | direct address => simp [Ram.value?, Operand.resolve, ram]
  | indirect address =>
    simp only [Ram.value?, Operand.resolve, ram, Int64.lt_iff_toInt_lt]
    by_cases hn : (state.registers.get address.toNat).toInt < 0
    · simp [hn]
    · simp [hn]

/-- An operand that does not resolve goes through a negative register. -/
theorem resolve_eq_error_iff {operand : Operand} {fault : Fault} :
    operand.resolve state.registers = .error fault ↔
      ∃ address, operand = .indirect address ∧ state.ram.registers address.toNat < 0 ∧
        fault = .negativeAddress (Int64.ofInt (state.ram.registers address.toNat)) := by
  cases operand with
  | literal value => simp [Operand.resolve]
  | direct address => simp [Operand.resolve]
  | indirect address =>
    simp only [Operand.resolve, ram, Int64.lt_iff_toInt_lt]
    by_cases hn : (state.registers.get address.toNat).toInt < 0
    · simp [hn, eq_comm]
    · simp [hn]

/-- Putting a value into the accumulator changes register 0. -/
theorem ram_perform_load (hc : 0 < state.registers.capacity) (value : Int64) :
    (state.perform (.load value)).ram = (state.ram.put 0 value.toInt).proceed := by
  simp only [perform, ram, Ram.put, Ram.proceed, RegisterFile.get_load value hc,
    apply_ite Int64.toInt]
  rfl

/-- Writing a register changes that register, whether or not the storage grows for it. -/
theorem ram_perform_store (hc : 0 < state.registers.capacity) {index : Nat}
    (hi : index < state.registers.limit) (value : Int64) :
    (state.perform (.store index value)).ram = (state.ram.put index value.toInt).proceed := by
  simp only [perform, ram, Ram.put, Ram.proceed, RegisterFile.get_write value hc hi,
    apply_ite Int64.toInt]
  rfl

theorem ram_perform_read (hc : 0 < state.registers.capacity) {index : Nat}
    (hi : index < state.registers.limit) {value : Int64} {rest : List Int64}
    (hin : state.input = value :: rest) :
    (state.perform (.read index value)).ram =
      ({ state.ram with
        input := rest.map Int64.toInt
        consumed := state.ram.consumed + 1 }.put index value.toInt).proceed := by
  simp only [perform, ram, Ram.put, Ram.proceed, RegisterFile.get_write value hc hi,
    apply_ite Int64.toInt, hin, List.tail_cons]

theorem ram_perform_write (value : Int64) :
    (state.perform (.write value)).ram =
      { state.ram with output := state.ram.output ++ [value.toInt] }.proceed := by
  simp only [perform, ram, Ram.proceed, Array.toList_push, List.map_append, List.map_cons,
    List.map_nil]
  rfl

/-- An effect follows a rule of the abstract machine. -/
theorem Yields.executes (hw : state.registers.WellFormed) {instruction : Instruction}
    {effect : Effect} (h : state.Yields instruction effect) :
    Ram.Executes state.registers.limit state.ram instruction (state.perform effect).ram := by
  have hc := hw.capacity_pos
  cases h with
  | load hresolve =>
    have hvalue := ram_value?_eq_some_iff.mpr ⟨_, hresolve, rfl⟩
    rw [ram_perform_load hc]
    exact .load hvalue
  | store hadmits =>
    have hi := RegisterFile.lt_limit_of_admits hadmits
    rw [ram_perform_store hc hi]
    exact .store hi
  | arith hresolve happly =>
    have hvalue := ram_value?_eq_some_iff.mpr ⟨_, hresolve, rfl⟩
    have hresult := ArithOp.apply_eq_ok_iff.mp happly
    rw [ram_perform_load hc]
    exact .arith hvalue hresult (Ram.representable_iff.mpr ⟨_, rfl⟩)
  | jump => exact .jump
  | taken hholds => exact .taken (Condition.holds_iff.mpr hholds)
  | untaken hholds => exact .untaken fun ht => hholds (Condition.holds_iff.mp ht)
  | read hinput hadmits =>
    have hi := RegisterFile.lt_limit_of_admits hadmits
    rw [ram_perform_read hc hi hinput]
    exact .read (congrArg (List.map Int64.toInt) hinput) hi
  | write hresolve =>
    have hvalue := ram_value?_eq_some_iff.mpr ⟨_, hresolve, rfl⟩
    rw [ram_perform_write]
    exact .write hvalue
  | halt => exact .halt

/-- A rule of the abstract machine is followed by an effect, if storage can be had. -/
theorem yields_of_executes (hw : state.registers.WellFormed)
    (hl : state.registers.limit ≤ RegisterFile.largestCapacity) {instruction : Instruction}
    {after : Ram} (h : Ram.Executes state.registers.limit state.ram instruction after) :
    ∃ effect, state.Yields instruction effect ∧ (state.perform effect).ram = after := by
  have hc := hw.capacity_pos
  cases h with
  | load hvalue =>
    obtain ⟨value, hresolve, rfl⟩ := ram_value?_eq_some_iff.mp hvalue
    exact ⟨_, .load hresolve, ram_perform_load hc value⟩
  | store hi =>
    have hadmits := (RegisterFile.admits_iff_lt hl).mpr hi
    exact ⟨_, .store hadmits, ram_perform_store hc hi _⟩
  | arith hvalue hresult hrep =>
    obtain ⟨value, hresolve, rfl⟩ := ram_value?_eq_some_iff.mp hvalue
    obtain ⟨result, rfl⟩ := Ram.representable_iff.mp hrep
    have happly := ArithOp.apply_eq_ok_iff.mpr hresult
    exact ⟨_, .arith hresolve happly, ram_perform_load hc result⟩
  | jump => exact ⟨_, .jump, rfl⟩
  | taken hholds => exact ⟨_, .taken (Condition.holds_iff.mp hholds), rfl⟩
  | untaken hholds =>
    have hnot := fun ht => hholds (Condition.holds_iff.mpr ht)
    exact ⟨_, .untaken hnot, rfl⟩
  | read hinput hi =>
    obtain ⟨value, rest, hcons, rfl, rfl⟩ := List.map_eq_cons_iff.mp hinput
    have hadmits := (RegisterFile.admits_iff_lt hl).mpr hi
    exact ⟨_, .read hcons hadmits, ram_perform_read hc hi hcons⟩
  | write hvalue =>
    obtain ⟨value, hresolve, rfl⟩ := ram_value?_eq_some_iff.mp hvalue
    exact ⟨_, .write hresolve, ram_perform_write value⟩
  | halt => exact ⟨_, .halt, rfl⟩

/-- If storage can be had, the instructions fail as the abstract ones do, and with their faults. -/
theorem meets_iff_refuses (hl : state.registers.limit ≤ RegisterFile.largestCapacity)
    {instruction : Instruction} {fault : Fault} :
    state.Meets instruction fault ↔
      Ram.Refuses state.registers.limit state.ram instruction fault := by
  constructor
  · intro h
    cases h with
    | source hsource hresolve =>
      obtain ⟨address, rfl, hneg, rfl⟩ := resolve_eq_error_iff.mp hresolve
      exact .negativeAddress hsource hneg
    | @result op operand _ _ hresolve happly =>
      have hvalue := ram_value?_eq_some_iff.mpr ⟨_, hresolve, rfl⟩
      rcases (ArithOp.apply_eq_error_iff operand).mp happly with
        ⟨rfl, rfl, rfl⟩ | ⟨number, hresult, hrep, rfl⟩
      · exact .divisionByZero hvalue
      · exact .arithmeticOverflow hvalue hresult hrep
    | tape hinput => exact .inputExhausted (congrArg (List.map Int64.toInt) hinput)
    | store hrefused =>
      rw [RegisterFile.admits_iff_lt hl] at hrefused
      exact .storeLimit (Nat.le_of_not_lt hrefused)
    | read hinput hrefused =>
      rw [RegisterFile.admits_iff_lt hl] at hrefused
      exact .readLimit (fun hnil => hinput (List.map_eq_nil_iff.mp hnil))
        (Nat.le_of_not_lt hrefused)
  · intro h
    have hrefused {index : Nat} (hi : state.registers.limit ≤ index) :
        ¬ state.registers.admits index = true :=
      fun hadmits => Nat.not_lt.mpr hi (RegisterFile.lt_limit_of_admits hadmits)
    cases h with
    | negativeAddress hsource hneg =>
      exact .source hsource (resolve_eq_error_iff.mpr ⟨_, rfl, hneg, rfl⟩)
    | @divisionByZero operand hvalue =>
      obtain ⟨value, hresolve, hzero⟩ := ram_value?_eq_some_iff.mp hvalue
      rw [← Int64.toInt_zero, Int64.toInt_inj] at hzero
      refine .result hresolve ((ArithOp.apply_eq_error_iff operand).mpr ?_)
      exact .inl ⟨rfl, hzero, rfl⟩
    | @arithmeticOverflow op operand _ _ hvalue hresult hrep =>
      obtain ⟨value, hresolve, rfl⟩ := ram_value?_eq_some_iff.mp hvalue
      refine .result hresolve ((ArithOp.apply_eq_error_iff operand).mpr ?_)
      exact .inr ⟨_, hresult, hrep, rfl⟩
    | inputExhausted hinput => exact .tape (List.map_eq_nil_iff.mp hinput)
    | readLimit hinput hi =>
      have hcons : state.input ≠ [] := fun hnil => hinput (congrArg (List.map Int64.toInt) hnil)
      exact .read hcons (hrefused hi)
    | storeLimit hi => exact .store (hrefused hi)

/-- A run that goes on makes the steps of the abstract machine. -/
theorem ram_steps_iff (hw : state.registers.WellFormed)
    (hl : state.registers.limit ≤ RegisterFile.largestCapacity) (hrun : state.status = .running)
    {program : Program} {instruction : Instruction} {ram : Ram} :
    Ram.Steps program state.registers.limit state.ram instruction ram ↔
      ∃ snapshot,
        (state.step program).1 = .ok ⟨state.counter, instruction, snapshot⟩ ∧
        (∀ index, (snapshot.get index).toInt = ram.registers index) ∧
        (state.step program).2.ram = ram := by
  constructor
  · rintro ⟨hget, hrule⟩
    obtain ⟨effect, hyields, rfl⟩ := yields_of_executes hw hl hrule
    have hafter := Effect.wellFormed_update hw hyields.fits
    rw [← registers_perform] at hafter
    rw [step_of_yields hrun hget hyields]
    exact ⟨_, rfl, fun index => congrArg Int64.toInt (hafter.get_snapshot index), rfl⟩
  · rintro ⟨snapshot, hstep, _, rfl⟩
    rcases state.step_cases program with ⟨found, effect, hget, hyields⟩ | ⟨fault, hfails⟩
    · rw [step_of_yields hrun hget hyields] at hstep ⊢
      cases hstep
      exact ⟨hget, hyields.executes hw⟩
    · rw [step_of_fails hrun hfails] at hstep
      cases hstep

/-- A run that goes on fails where the abstract machine does, with its fault. -/
theorem ram_fails_iff (hl : state.registers.limit ≤ RegisterFile.largestCapacity)
    (hrun : state.status = .running) {program : Program} {fault : Fault} :
    Ram.Fails program state.registers.limit state.ram fault ↔
      (state.step program).1 = .error fault := by
  constructor
  · intro h
    cases h with
    | outside hout =>
      have hfails := Fails.outside (Program.get?_eq_none_iff.mpr hout)
      rw [step_of_fails hrun hfails]
      rfl
    | refused hget hrefuses =>
      have hfails := Fails.refused hget ((meets_iff_refuses hl).mpr hrefuses)
      rw [step_of_fails hrun hfails]
  · intro h
    cases (step_of_fault hrun h).1 with
    | outside hget => exact .outside (Program.get?_eq_none_iff.mp hget)
    | refused hget hmeets => exact .refused hget ((meets_iff_refuses hl).mp hmeets)

/-- What a fault changes is not seen by the abstract machine. -/
theorem ram_of_fault (hrun : state.status = .running) {program : Program} {fault : Fault}
    (hstep : (state.step program).1 = .error fault) :
    (state.step program).2.ram = state.ram := by
  rw [(step_of_fault hrun hstep).2]
  simp [ram, hrun]

end State

end RandomAccess
