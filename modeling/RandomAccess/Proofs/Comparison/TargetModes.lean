import Mathlib.Algebra.BigOperators.Group.List.Basic
import RandomAccess.Proofs.Comparison.Simulation
import RandomAccess.Proofs.Cost.Profile
import RandomAccess.Proofs.Cost.Terms
import RandomAccess.Proofs.Trace.Footprint

/-!
# Target modes

Any of the targets of a program that are in literal mode are put into direct mode. Both programs
make the same steps on the same states, and record the same registers: execution goes by the address
of a target and by nothing else. Only the cost looks at the mode. A step whose target was changed is
charged the bit length of what its register holds after it, on top of what it was charged before.
-/

namespace RandomAccess

/-- The target of the same register in direct mode. -/
def Target.toDirect : Target → Target
  | literal address | direct address => .direct address

/-- The instruction with its target in direct mode, if it has one. -/
def Instruction.toDirect : Instruction → Instruction
  | .store target => .store target.toDirect
  | .read target => .read target.toDirect
  | instruction => instruction

/-- The instruction at a position after those at the chosen positions were put into direct mode. -/
def Instruction.toDirectAt (chosen : Nat → Bool) (position : Nat) (instruction : Instruction) :
    Instruction :=
  if chosen position then instruction.toDirect else instruction

/-- The program with all its targets at the chosen positions in direct mode. -/
def Program.toDirectAt (chosen : Nat → Bool) (program : Program) : Program :=
  ⟨program.instructions.mapIdx fun index instruction => instruction.toDirectAt chosen (index + 1)⟩

/-- The step as the changed program records it. -/
def Step.toDirectAt (chosen : Nat → Bool) (step : Step) : Step :=
  { step with instruction := step.instruction.toDirectAt chosen step.position }

/-- What an instruction is charged on top if its target is put into direct mode. -/
def Instruction.surcharge (registers : RegisterFile) : Instruction → Nat
  | .store (.literal address) | .read (.literal address) =>
      Cost.magnitudeLength (registers.get address.toNat)
  | _ => 0

/-- What a step is charged on top in the changed program: something if its target was changed, and
nothing else. -/
def Step.surcharge (chosen : Nat → Bool) (step : Step) : Nat :=
  if chosen step.position then step.instruction.surcharge step.registers else 0

section

variable {chosen : Nat → Bool} {program : Program} {position : Nat} {instruction : Instruction}

@[simp] theorem Target.address_toDirect (target : Target) :
    target.toDirect.address = target.address := by
  cases target <;> rfl

@[simp] theorem Program.size_toDirectAt : (program.toDirectAt chosen).size = program.size :=
  Array.size_mapIdx

theorem Program.get?_toDirectAt :
    (program.toDirectAt chosen).get? position =
      (program.get? position).map (Instruction.toDirectAt chosen position) := by
  unfold get?
  split
  · rfl
  · rw [toDirectAt, Array.getElem?_mapIdx, Nat.sub_add_cancel (by omega)]

namespace State

variable {state : State}

/-- The mode of a target has no part in what an instruction does. -/
theorem effect_toDirectAt :
    state.effect (instruction.toDirectAt chosen position) = state.effect instruction := by
  unfold Instruction.toDirectAt
  split
  · cases instruction with
    | store target | read target =>
      simp only [Instruction.toDirect, effect, Target.address_toDirect]
    | load _ | arith _ _ | jump _ | branch _ _ | write _ | halt => rfl
  · rfl

/-- The steps of a program are answered by those of the changed program, on the same states. -/
theorem simulates_toDirectAt (chosen : Nat → Bool) (program : Program) :
    Simulates program (program.toDirectAt chosen) (fun _ => False)
      (fun step other => other = step.toDirectAt chosen) Eq where
  status := by
    rintro state _ rfl
    rfl
  counter := by
    rintro state _ rfl
    rfl
  output := by
    rintro state _ rfl
    rfl
  succeeds := by
    rintro state _ step after rfl hstep
    obtain ⟨hrun, instruction, effect, hget, hyields, rfl, rfl⟩ := step_eq_ok_iff.mp hstep
    have hother : state.Yields (instruction.toDirectAt chosen state.counter) effect := by
      rwa [← effect_eq_ok_iff, effect_toDirectAt, effect_eq_ok_iff]
    refine ⟨_, _, step_of_yields hrun ?_ hother, rfl, rfl⟩
    rw [Program.get?_toDirectAt, hget, Option.map_some]
  fails := by
    rintro state _ fault rfl hrun hfault
    refine .inr (congrArg Prod.fst (step_of_fails hrun ?_))
    cases (step_of_fault hrun hfault).1 with
    | outside hget =>
      have hsize : (program.toDirectAt chosen).size = program.size := Program.size_toDirectAt
      rw [← hsize]
      refine .outside ?_
      rw [Program.get?_toDirectAt, hget, Option.map_none]
    | @refused instruction _ hget hmeets =>
      have hchanged : (program.toDirectAt chosen).get? state.counter =
          some (instruction.toDirectAt chosen state.counter) := by
        rw [Program.get?_toDirectAt, hget, Option.map_some]
      refine .refused hchanged ?_
      rwa [← effect_eq_error_iff, effect_toDirectAt, effect_eq_error_iff]

end State

/-- The changed program asks for `HALT` where the program does. -/
theorem Instruction.toDirectAt_eq_halt_iff :
    instruction.toDirectAt chosen position = .halt ↔ instruction = .halt := by
  unfold toDirectAt
  split
  · cases instruction <;> simp [toDirect]
  · rfl

/-- An address that a literal can hold is charged in full in both modes. -/
theorem Instruction.weight_toDirect (registers : RegisterFile)
    (h : ∀ index ∈ instruction.written?, index ≤ Int64.maxValue.toInt.toNat) :
    Cost.weight .logarithmic instruction.toDirect registers =
      Cost.weight .logarithmic instruction registers + instruction.surcharge registers := by
  cases instruction with
  | store target | read target =>
    cases target with
    | direct address => rfl
    | literal address =>
      have hle : address.toNat ≤ Int64.maxValue.toInt.toNat := h _ rfl
      have hliteral := Cost.operandWeight_position registers address
      rw [Nat.min_eq_left hle] at hliteral
      exact congrArg (· + _) hliteral.symm
  | load _ | arith _ _ | jump _ | branch _ _ | write _ | halt => rfl

end

section

variable {chosen : Nat → Bool} {trace : List Step}

/-- The changed program's trace weighs more by the surcharges, if all its addresses can be written
as literals. -/
theorem Step.sum_weight_toDirectAt (chosen : Nat → Bool)
    (h : ∀ step ∈ trace, ∀ index ∈ step.instruction.written?,
      index ≤ Int64.maxValue.toInt.toNat) :
    ((trace.map (toDirectAt chosen)).map fun step =>
        Cost.weight .logarithmic step.instruction step.registers).sum =
      (trace.map fun step => Cost.weight .logarithmic step.instruction step.registers).sum +
        (trace.map (surcharge chosen)).sum := by
  rw [← List.sum_map_add, List.map_map]
  refine congrArg List.sum (List.map_congr_left fun step hstep => ?_)
  simp only [Function.comp_apply, toDirectAt, surcharge, Instruction.toDirectAt]
  split
  · exact step.instruction.weight_toDirect step.registers (h step hstep)
  · rfl

/-- As many steps as before are not `HALT`. -/
theorem Step.uniform_toDirectAt :
    (Cost.analyze (trace.map (toDirectAt chosen))).uniform = (Cost.analyze trace).uniform := by
  rw [Cost.uniform_analyze, Cost.uniform_analyze, List.countP_map]
  simp only [Function.comp_def, toDirectAt, ne_eq, Instruction.toDirectAt_eq_halt_iff]

/-- Steps that are answered one by one are those of the changed program. -/
theorem Step.eq_map_toDirectAt {others : List Step}
    (h : List.Forall₂ (fun step other => other = step.toDirectAt chosen) trace others) :
    others = trace.map (toDirectAt chosen) := by
  induction h with
  | nil => rfl
  | cons hstep _ ih => rw [hstep, ih, List.map_cons]

end

namespace Machine

/-- Target modes differ only in cost. Each step that wrote through a changed target is charged the
bit length of what it wrote on top of its former cost. -/
theorem target_modes_differ_in_cost (program : Program) (chosen : Nat → Bool) (config : Config)
    (input : List Int64) :
    let changed := program.toDirectAt chosen
    ((∃ outcome, Returns ⟨program, config⟩ input outcome) ↔
        ∃ outcome, Returns ⟨changed, config⟩ input outcome) ∧
      ∀ outcome other, Returns ⟨program, config⟩ input outcome →
        Returns ⟨changed, config⟩ input other →
        other.result = outcome.result ∧ other.position? = outcome.position? ∧
          other.trace = outcome.trace.map (Step.toDirectAt chosen) ∧
          other.trace.map Step.position = outcome.trace.map Step.position ∧
          other.trace.map Step.registers = outcome.trace.map Step.registers ∧
          other.cost.uniform = outcome.cost.uniform ∧
          ((∀ index, program.Names index → index ≤ Int64.maxValue.toInt.toNat) →
            other.cost.logarithmic < Cost.ceiling →
            other.cost.logarithmic =
              outcome.cost.logarithmic + (outcome.trace.map (Step.surcharge chosen)).sum) := by
  intro changed
  have hstart : start ⟨program, config⟩ input = start ⟨changed, config⟩ input := rfl
  obtain ⟨hreturn, halike⟩ := returns_alike (State.simulates_toDirectAt chosen program) hstart rfl
    fun _ _ _ _ => not_false
  refine ⟨hreturn, fun outcome other h hother => ?_⟩
  have hviews : other.result = outcome.result ∧ other.position? = outcome.position? ∧
      other.trace = outcome.trace.map (Step.toDirectAt chosen) := by
    cases halike outcome other h hother with
    | success htraces | failure htraces => exact ⟨rfl, rfl, Step.eq_map_toDirectAt htraces⟩
  obtain ⟨hresult, hposition, htrace⟩ := hviews
  refine ⟨hresult, hposition, htrace, ?_, ?_, ?_, fun hnames hcounted => ?_⟩
  · rw [htrace, List.map_map]
    rfl
  · rw [htrace, List.map_map]
    rfl
  · rw [Outcome.cost, htrace, Step.uniform_toDirectAt]
    rfl
  · obtain ⟨state, hmakes, -⟩ := (returns_iff_ends.mp h).makes
    have hpath := (hmakes.path (wellFormed_start _ input)).1
    have hsum := Step.sum_weight_toDirectAt chosen fun step hstep index hwritten =>
      hnames index ⟨step.instruction, Program.mem_of_get? (hpath step hstep), hwritten⟩
    rw [Outcome.cost, htrace, Cost.logarithmic_analyze, hsum] at hcounted ⊢
    rw [Outcome.cost, Cost.logarithmic_analyze]
    omega

/-- Of two targets in literal mode the first one is changed. Its register holds five binary digits
when it is charged, and is overwritten later; the run ends in a fault. -/
theorem target_modes_differ_in_cost_read :
    let program := Program.ofList [.read (.literal 1), .load (.literal 3), .store (.literal 1),
      .arith .div (.direct 2)]
    let changed := program.toDirectAt fun position => position == 1
    ∃ outcome other, run? ⟨program, {}⟩ 4 [20] = some outcome ∧
      run? ⟨changed, {}⟩ 4 [20] = some other ∧ other.result = .error .divisionByZero ∧
      other.position? = some 4 ∧ other.trace.map Step.position = [1, 2, 3] ∧
      (∀ index, program.Names index → index ≤ Int64.maxValue.toInt.toNat) ∧
      other.cost.logarithmic < Cost.ceiling ∧
      other.cost.logarithmic = outcome.cost.logarithmic + 5 := by
  intro program changed
  have hfirst : (run? ⟨program, {}⟩ 4 [20]).map (fun outcome => (outcome.result, outcome.position?,
      outcome.trace.map Step.position, (outcome.trace.map (Step.surcharge (· == 1))).sum)) =
        some (.error .divisionByZero, some 4, [1, 2, 3], 5) := by decide +kernel
  have hsecond : (run? ⟨changed, {}⟩ 4 [20]).map (fun other => other.cost.logarithmic) =
      some 9 := by decide +kernel
  obtain ⟨outcome, houtcome, hviews⟩ := Option.map_eq_some_iff.mp hfirst
  obtain ⟨other, hother, hcost⟩ := Option.map_eq_some_iff.mp hsecond
  simp only [Prod.mk.injEq] at hviews
  obtain ⟨hresult, hposition, hpositions, hsurcharge⟩ := hviews
  have hbelow : ∀ instruction ∈ program.instructions, ∀ index ∈ instruction.written?,
      index ≤ Int64.maxValue.toInt.toNat := by decide
  have hnames : ∀ index, program.Names index → index ≤ Int64.maxValue.toInt.toNat := by
    rintro index ⟨instruction, hmem, hwritten⟩
    exact hbelow instruction hmem index hwritten
  have hcounted : other.cost.logarithmic < Cost.ceiling := by
    rw [hcost]
    decide
  obtain ⟨hsame, hat, -, hpath, -, -, hmore⟩ :=
    (target_modes_differ_in_cost program (· == 1) {} [20]).2 outcome other ⟨4, houtcome⟩ ⟨4, hother⟩
  refine ⟨outcome, other, houtcome, hother, hsame.trans hresult, hat.trans hposition,
    hpath.trans hpositions, hnames, hcounted, ?_⟩
  rw [hmore hnames hcounted, hsurcharge]

end Machine

end RandomAccess
