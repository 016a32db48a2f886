import RandomAccess.Proofs.Comparison.UnreadInput
import RandomAccess.Proofs.Cost.Profile
import RandomAccess.Proofs.Execution.Refinement
import RandomAccess.Proofs.Trace.Path

/-!
# Derivations

A program can be followed on the abstract machine, where registers are integers from the start and
no storage has to be looked after: a derivation puts the rules of its instructions one after
another. What is derived there happens on the machine. Its run makes the steps of the derivation,
ends where the derivation halts or is refused, and leaves a trace that tells the same registers.
-/

namespace RandomAccess

/-- What the record of a step tells, without the storage of its registers. -/
structure Ram.Entry where
  /-- The position of the instruction. -/
  position : Nat
  /-- The instruction itself. -/
  instruction : Instruction
  /-- The registers right after it. -/
  registers : Nat → Int

/-- The entry of a step. -/
def Step.entry (step : Step) : Ram.Entry where
  position := step.position
  instruction := step.instruction
  registers index := (step.registers.get index).toInt

namespace Ram

/-- The abstract machine before its first step. -/
def start (input : List Int) : Ram where
  registers _ := 0
  counter := 1
  input := input
  consumed := 0
  output := []
  halted := false

/-- Steps of the abstract machine one after another, each with the entry that it leaves. -/
inductive Derives (program : Program) (limit : Nat) : Ram → List Entry → Ram → Prop
  | nil {ram : Ram} : Derives program limit ram [] ram
  | cons {ram middle last : Ram} {instruction : Instruction} {entries : List Entry} :
      ram.halted = false → Steps program limit ram instruction middle →
      Derives program limit middle entries last →
      Derives program limit ram (⟨ram.counter, instruction, middle.registers⟩ :: entries) last

/-- Derivations are put one after another. -/
theorem Derives.append {program : Program} {limit : Nat} {first middle last : Ram}
    {entries more : List Entry} (h : Derives program limit first entries middle)
    (hmore : Derives program limit middle more last) :
    Derives program limit first (entries ++ more) last := by
  induction h with
  | nil => exact hmore
  | cons hstill hstep _ ih => exact .cons hstill hstep (ih hmore)

/-- The program comes to `HALT`, with the given output. -/
def Halts (program : Program) (limit : Nat) (input output : List Int) (entries : List Entry) :
    Prop :=
  ∃ ram, Derives program limit (start input) entries ram ∧ ram.halted = true ∧ ram.output = output

/-- The program is refused at a position, with the given fault. -/
def Stops (program : Program) (limit : Nat) (input : List Int) (fault : Fault) (position : Nat)
    (entries : List Entry) : Prop :=
  ∃ ram, Derives program limit (start input) entries ram ∧ ram.halted = false ∧
    ram.counter = position ∧ Fails program limit ram fault

/-- What an entry weighs in the logarithmic model. -/
def Entry.weight (entry : Entry) : Nat :=
  match entry.instruction.operand? with
  | none => 0
  | some (.literal value) => Cost.bitLength value.toInt.natAbs
  | some (.direct address) =>
      Cost.bitLength address.toNat + Cost.bitLength (entry.registers address.toNat).natAbs
  | some (.indirect address) =>
      let inner := entry.registers address.toNat
      let reached := if inner < 0 then 0 else entry.registers inner.toNat
      Cost.bitLength address.toNat + Cost.bitLength inner.natAbs + Cost.bitLength reached.natAbs

/-- What an entry tells of the input: the number that a read has put into its register. -/
def Entry.received? (entry : Entry) : Option Int :=
  match entry.instruction with
  | .read target => some (entry.registers target.address)
  | .load _ | .store _ | .arith _ _ | .jump _ | .branch _ _ | .write _ | .halt => none

end Ram

/-- A step has received what its entry tells. -/
theorem Step.received?_entry (step : Step) :
    step.entry.received? = step.received?.map Int64.toInt := by
  have hinstruction : step.entry.instruction = step.instruction := rfl
  simp only [Ram.Entry.received?, received?, hinstruction]
  cases step.instruction with
  | read target => rfl
  | load | store | arith | jump | branch | write | halt => rfl

/-- A step weighs what its entry weighs. -/
theorem Step.weight_entry (step : Step) :
    step.entry.weight = Cost.weight .logarithmic step.instruction step.registers := by
  have hinstruction : step.entry.instruction = step.instruction := rfl
  have hregisters (index : Nat) :
      step.entry.registers index = (step.registers.get index).toInt := rfl
  simp only [Ram.Entry.weight, Cost.weight, hinstruction, hregisters]
  cases step.instruction.operand? with
  | none => rfl
  | some operand =>
    cases operand with
    | literal value | direct address => rfl
    | indirect address =>
      simp only [Cost.operandWeight, Cost.magnitudeLength, Cost.reached, Int64.lt_iff_toInt_lt,
        apply_ite Int64.toInt]
      rfl

namespace Outcome

variable {outcome : Outcome} {entries : List Ram.Entry}

/-- A trace is as long as its entries. -/
theorem length_of_entries (h : outcome.trace.map Step.entry = entries) :
    outcome.trace.length = entries.length := by
  rw [← h, List.length_map]

/-- The entries of a trace tell its positions. -/
theorem positions_of_entries (h : outcome.trace.map Step.entry = entries) :
    outcome.trace.map Step.position = entries.map Ram.Entry.position := by
  rw [← h, List.map_map]
  rfl

/-- The entries of a trace tell its logarithmic cost. -/
theorem logarithmic_of_entries (h : outcome.trace.map Step.entry = entries) :
    outcome.cost.logarithmic = min (entries.map Ram.Entry.weight).sum Cost.ceiling := by
  rw [← h, List.map_map, cost, Cost.logarithmic_analyze]
  simp only [Function.comp_def, Step.weight_entry]

/-- The entries of a trace tell what was received from the input. -/
theorem received_of_entries (h : outcome.trace.map Step.entry = entries) :
    outcome.received.map Int64.toInt = entries.filterMap Ram.Entry.received? := by
  rw [← h, received, List.map_filterMap, List.filterMap_map]
  exact congrArg (List.filterMap · _) (funext fun step => step.received?_entry.symm)

end Outcome

namespace State

variable {program : Program} {state : State}

/-- What is derived from the registers and the tapes of a state are the steps that it makes. -/
theorem makes_of_derives {limit : Nat} {first last : Ram} {entries : List Ram.Entry}
    (h : Ram.Derives program limit first entries last) (hl : limit ≤ RegisterFile.largestCapacity)
    (hram : state.ram = first) (hw : state.registers.WellFormed)
    (hlimit : state.registers.limit = limit)
    (hstatus : state.status = .running ∨ state.status = .halted) :
    ∃ steps final, state.Makes program steps final ∧ steps.map Step.entry = entries ∧
      final.ram = last := by
  induction h generalizing state with
  | nil => exact ⟨[], state, .nil, rfl, hram⟩
  | @cons first middle last instruction entries hstill hsteps _ ih =>
    subst hram hlimit
    have hrun : state.status = .running := by
      refine hstatus.resolve_right fun hhalted => ?_
      simp [State.ram, hhalted] at hstill
    obtain ⟨snapshot, hanswer, hget, hmiddle⟩ := (ram_steps_iff hw hl hrun).mp hsteps
    have hstep : state.step program = (.ok ⟨state.counter, instruction, snapshot⟩, _) :=
      Prod.ext hanswer rfl
    have hone := Makes.cons hstep .nil
    obtain ⟨hafter, hkept⟩ := hone.registers hw
    obtain ⟨steps, final, hmakes, hentries, hfinal⟩ :=
      ih hmiddle hafter hkept (hone.status hrun)
    refine ⟨_, final, .cons hstep hmakes, ?_, hfinal⟩
    rw [List.map_cons, hentries, Step.entry]
    simp only [hget]
    rfl

end State

namespace Machine

variable {machine : Machine} {input : List Int64} {entries : List Ram.Entry} {ram : Ram}
  {fault : Fault} {position : Nat} {output : List Int}

/-- A machine starts as the abstract machine does. -/
theorem ram_start (machine : Machine) (input : List Int64) :
    (machine.start input).ram = .start (input.map Int64.toInt) := by
  have hzero := (machine.registers_start input).2
  simp only [State.ram, hzero]
  rfl

/-- The steps derived from the start of a machine are those that its first state makes. -/
theorem makes_of_derives
    (h : Ram.Derives machine.program (max machine.config.registerLimit 1)
      (.start (input.map Int64.toInt)) entries ram)
    (hl : max machine.config.registerLimit 1 ≤ RegisterFile.largestCapacity) :
    ∃ steps final, (machine.start input).Makes machine.program steps final ∧
      steps.map Step.entry = entries ∧ final.ram = ram :=
  State.makes_of_derives h hl (machine.ram_start input) (wellFormed_start machine input)
    (machine.registers_start input).1 (.inl rfl)

/-- A derivation that comes to `HALT` within the limit of steps is a success. -/
theorem ends_of_halts (machine : Machine) (input : List Int64)
    (h : Ram.Halts machine.program (max machine.config.registerLimit 1) (input.map Int64.toInt)
      output entries)
    (hl : max machine.config.registerLimit 1 ≤ RegisterFile.largestCapacity)
    (hlimit : ∀ limit ∈ machine.config.stepLimit, entries.length ≤ limit) :
    ∃ outcome, machine.Ends input outcome ∧ outcome.trace.map Step.entry = entries ∧
      outcome.cost.uniform = min (entries.length - 1) Cost.ceiling ∧
      ∃ values, outcome.result = .ok values ∧ values.map Int64.toInt = output := by
  obtain ⟨ram, hderives, hhalted, rfl⟩ := h
  obtain ⟨steps, final, hmakes, rfl, rfl⟩ := makes_of_derives hderives hl
  rw [List.length_map] at hlimit ⊢
  have hends := Ends.halted hmakes (of_decide_eq_true hhalted) hlimit
  exact ⟨_, hends, rfl, hends.uniform_cost, _, rfl, rfl⟩

/-- A derivation after which the program is refused within the limit of steps is a failure. -/
theorem ends_of_stops (machine : Machine) (input : List Int64)
    (h : Ram.Stops machine.program (max machine.config.registerLimit 1) (input.map Int64.toInt)
      fault position entries)
    (hl : max machine.config.registerLimit 1 ≤ RegisterFile.largestCapacity)
    (hlimit : ∀ limit ∈ machine.config.stepLimit, entries.length < limit) :
    ∃ outcome, machine.Ends input outcome ∧ outcome.trace.map Step.entry = entries ∧
      outcome.result = .error fault ∧ outcome.position? = some position := by
  obtain ⟨ram, hderives, hstill, rfl, hfails⟩ := h
  obtain ⟨steps, final, hmakes, rfl, rfl⟩ := makes_of_derives hderives hl
  rw [List.length_map] at hlimit
  have hrun : final.status = .running :=
    (hmakes.status rfl).resolve_right (of_decide_eq_false hstill)
  have hkept := (hmakes.registers (wellFormed_start machine input)).2
  rw [← (machine.registers_start input).1, ← hkept] at hfails hl
  exact ⟨_, .faulted hmakes hrun ((State.ram_fails_iff hl hrun).mp hfails) hlimit, rfl, rfl, rfl⟩

end Machine

end RandomAccess
