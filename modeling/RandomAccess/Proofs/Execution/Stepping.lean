import RandomAccess.Execution.Machine
import RandomAccess.Proofs.Memory.Storage

/-!
# Stepping

What a step can do is said here once: which effect each instruction has, which faults it meets,
and that a step either performs the effect or stops with the fault. Later modules go through these
cases and the frame of `perform`, and take no step apart again. The programs of successive steps
may all be different.
-/

namespace RandomAccess

section

variable {α β : Type} {fault : Fault}

theorem bind_eq_ok_iff {first : Except Fault α} {second : α → Except Fault β} {result : β} :
    first >>= second = .ok result ↔ ∃ value, first = .ok value ∧ second value = .ok result := by
  cases first <;> simp [bind, Except.bind]

theorem bind_eq_error_iff {first : Except Fault α} {second : α → Except Fault β} :
    first >>= second = .error fault ↔
      first = .error fault ∨ ∃ value, first = .ok value ∧ second value = .error fault := by
  cases first <;> simp [bind, Except.bind]

theorem pure_eq_ok_iff {value result : α} :
    (pure value : Except Fault α) = .ok result ↔ result = value := by
  simp [pure, Except.pure, eq_comm]

theorem pure_eq_error_iff {value : α} : (pure value : Except Fault α) = .error fault ↔ False := by
  simp [pure, Except.pure]

end

namespace RegisterFile

variable {registers : RegisterFile} {index : Nat} {fault : Fault}

theorem check_eq_ok_iff {done : Unit} :
    registers.check index = .ok done ↔ registers.admits index = true := by
  unfold check
  split <;> simp_all

theorem check_eq_error_iff :
    registers.check index = .error fault ↔
      ¬ registers.admits index = true ∧ .registerLimit index registers.limit = fault := by
  unfold check
  split <;> simp_all

end RegisterFile

/-- An instruction's operand, for those that take a value from one. -/
def Instruction.source? : Instruction → Option Operand
  | .load operand | .arith _ operand | .write operand => some operand
  | .store _ | .jump _ | .branch _ _ | .read _ | .halt => none

namespace Effect

/-- The registers admit what an effect writes to them. -/
def Fits (registers : RegisterFile) : Effect → Prop
  | store index _ | read index _ => registers.admits index = true
  | load _ | write _ | goto _ | halt => True

/-- The registers after an effect. -/
def update (registers : RegisterFile) : Effect → RegisterFile
  | load value => registers.load value
  | store index value | read index value => registers.write index value
  | write _ | goto _ | halt => registers

@[simp] theorem limit_update (effect : Effect) (registers : RegisterFile) :
    (effect.update registers).limit = registers.limit := by
  cases effect <;> rfl

theorem wellFormed_update {effect : Effect} {registers : RegisterFile} (h : registers.WellFormed)
    (hf : effect.Fits registers) : (effect.update registers).WellFormed := by
  cases effect with
  | load value => exact h.load value
  | store index value | read index value =>
    exact h.write value (RegisterFile.lt_limit_of_admits hf)
  | write value | goto position | halt => exact h

end Effect

namespace State

variable {state : State} {program : Program} {instruction : Instruction} {effect : Effect}

/-- What the instructions do in a state, case by case. -/
inductive Yields (state : State) : Instruction → Effect → Prop
  | load {operand value} : operand.resolve state.registers = .ok value →
      Yields state (.load operand) (.load value)
  | store {target} : state.registers.admits target.address = true →
      Yields state (.store target) (.store target.address state.registers.accumulator)
  | arith {op operand value result} : operand.resolve state.registers = .ok value →
      op.apply state.registers.accumulator value = .ok result →
      Yields state (.arith op operand) (.load result)
  | jump {position} : Yields state (.jump position) (.goto position.toNat)
  | taken {condition position} : condition.holds state.registers.accumulator = true →
      Yields state (.branch condition position) (.goto position.toNat)
  | untaken {condition position} : ¬ condition.holds state.registers.accumulator = true →
      Yields state (.branch condition position) (.goto (state.counter + 1))
  | read {target value rest} : state.input = value :: rest →
      state.registers.admits target.address = true →
      Yields state (.read target) (.read target.address value)
  | write {operand value} : operand.resolve state.registers = .ok value →
      Yields state (.write operand) (.write value)
  | halt : Yields state .halt .halt

/-- Where the instructions fail in a state, and with which fault. -/
inductive Meets (state : State) : Instruction → Fault → Prop
  | source {instruction operand fault} : instruction.source? = some operand →
      operand.resolve state.registers = .error fault → Meets state instruction fault
  | result {op operand value fault} : operand.resolve state.registers = .ok value →
      op.apply state.registers.accumulator value = .error fault →
      Meets state (.arith op operand) fault
  | tape {target} : state.input = [] → Meets state (.read target) (.inputExhausted state.consumed)
  | store {target} : ¬ state.registers.admits target.address = true →
      Meets state (.store target) (.registerLimit target.address state.registers.limit)
  | read {target} : state.input ≠ [] → ¬ state.registers.admits target.address = true →
      Meets state (.read target) (.registerLimit target.address state.registers.limit)

theorem effect_eq_ok_iff :
    state.effect instruction = .ok effect ↔ state.Yields instruction effect := by
  constructor
  · intro h
    cases instruction with
    | load operand =>
      simp only [State.effect, bind_eq_ok_iff, pure_eq_ok_iff] at h
      obtain ⟨value, hvalue, rfl⟩ := h
      exact .load hvalue
    | store target =>
      simp only [State.effect, bind_eq_ok_iff, pure_eq_ok_iff, RegisterFile.check_eq_ok_iff] at h
      obtain ⟨_, hadmits, rfl⟩ := h
      exact .store hadmits
    | arith op operand =>
      simp only [State.effect, bind_eq_ok_iff, pure_eq_ok_iff] at h
      obtain ⟨value, hvalue, result, hresult, rfl⟩ := h
      exact .arith hvalue hresult
    | jump position =>
      cases h
      exact .jump
    | branch condition position =>
      by_cases hholds : condition.holds state.registers.accumulator = true
      · rw [State.effect, if_pos hholds] at h
        cases h
        exact .taken hholds
      · rw [State.effect, if_neg hholds] at h
        cases h
        exact .untaken hholds
    | read target =>
      simp only [State.effect] at h
      split at h
      · cases h
      · next value rest hinput =>
        simp only [bind_eq_ok_iff, pure_eq_ok_iff, RegisterFile.check_eq_ok_iff] at h
        obtain ⟨_, hadmits, rfl⟩ := h
        exact .read hinput hadmits
    | write operand =>
      simp only [State.effect, bind_eq_ok_iff, pure_eq_ok_iff] at h
      obtain ⟨value, hvalue, rfl⟩ := h
      exact .write hvalue
    | halt =>
      cases h
      exact .halt
  · intro h
    cases h with
    | load hvalue | write hvalue =>
      rw [State.effect, hvalue]
      rfl
    | store hadmits =>
      rw [State.effect, RegisterFile.check, if_pos hadmits]
      rfl
    | arith hvalue hresult =>
      simp only [State.effect, hvalue, bind, Except.bind, hresult]
      rfl
    | jump | halt => rfl
    | taken hholds =>
      rw [State.effect, if_pos hholds]
      rfl
    | untaken hholds =>
      rw [State.effect, if_neg hholds]
      rfl
    | read hinput hadmits =>
      simp only [State.effect, hinput, RegisterFile.check, if_pos hadmits]
      rfl

theorem effect_eq_error_iff {fault : Fault} :
    state.effect instruction = .error fault ↔ state.Meets instruction fault := by
  constructor
  · intro h
    cases instruction with
    | load operand | write operand =>
      simp only [State.effect, bind_eq_error_iff, pure_eq_error_iff, and_false, exists_false,
        or_false] at h
      exact .source rfl h
    | store target =>
      simp only [State.effect, bind_eq_error_iff, pure_eq_error_iff, and_false, exists_false,
        or_false, RegisterFile.check_eq_error_iff] at h
      obtain ⟨hrefused, rfl⟩ := h
      exact .store hrefused
    | arith op operand =>
      simp only [State.effect, bind_eq_error_iff, pure_eq_error_iff, and_false, exists_false,
        or_false] at h
      rcases h with hsource | ⟨value, hvalue, hresult⟩
      · exact .source rfl hsource
      · exact .result hvalue hresult
    | jump position | halt => cases h
    | branch condition position =>
      simp only [State.effect] at h
      split at h <;> cases h
    | read target =>
      simp only [State.effect] at h
      split at h
      · next hinput =>
        cases h
        exact .tape hinput
      · next value rest hinput =>
        simp only [bind_eq_error_iff, pure_eq_error_iff, and_false, exists_false, or_false,
          RegisterFile.check_eq_error_iff] at h
        obtain ⟨hrefused, rfl⟩ := h
        refine .read ?_ hrefused
        rw [hinput]
        exact List.cons_ne_nil value rest
  · intro h
    cases h with
    | source hsource hresolve =>
      cases instruction with
      | load operand | arith op operand | write operand =>
        cases hsource
        rw [State.effect, hresolve]
        rfl
      | store target | jump position | branch condition position | read target | halt =>
        cases hsource
    | result hvalue hresult =>
      simp only [State.effect, hvalue, bind, Except.bind, hresult]
    | tape hinput => simp only [State.effect, hinput]
    | store hrefused =>
      rw [State.effect, RegisterFile.check, if_neg hrefused]
      rfl
    | read hinput hrefused =>
      obtain ⟨value, rest, hcons⟩ := List.exists_cons_of_ne_nil hinput
      simp only [State.effect, hcons, RegisterFile.check, if_neg hrefused]
      rfl

/-- An instruction writes only where the registers admit it. -/
theorem Yields.fits (h : state.Yields instruction effect) : effect.Fits state.registers := by
  cases h with
  | store hadmits | read _ hadmits => exact hadmits
  | load | arith | jump | taken | untaken | write | halt => trivial

/-- Where the steps of a program fail, and with which fault. -/
inductive Fails (state : State) (program : Program) : Fault → Prop
  | outside : program.get? state.counter = none →
      Fails state program (.invalidProgramCounter state.counter program.size)
  | refused {instruction fault} : program.get? state.counter = some instruction →
      state.Meets instruction fault → Fails state program fault

theorem step_of_yields (hrun : state.status = .running)
    (hget : program.get? state.counter = some instruction)
    (h : state.Yields instruction effect) :
    state.step program =
      (.ok ⟨state.counter, instruction, (state.perform effect).registers.snapshot⟩,
        state.perform effect) := by
  have heffect := effect_eq_ok_iff.mpr h
  have hfetch := Program.fetch_of_get? hget
  simp only [step, hrun, next, hfetch, heffect, bind, Except.bind, pure, Except.pure]

theorem step_of_fails {fault : Fault} (hrun : state.status = .running)
    (h : state.Fails program fault) :
    state.step program = (.error fault, { state with status := .faulted fault }) := by
  cases h with
  | outside hget =>
    have hfetch := Program.fetch_of_get?_eq_none hget
    simp only [step, hrun, next, hfetch, bind, Except.bind]
  | refused hget hmeets =>
    have hfetch := Program.fetch_of_get? hget
    have heffect := effect_eq_error_iff.mpr hmeets
    simp only [step, hrun, next, hfetch, heffect, bind, Except.bind]

/-- All that the step of a run that goes on can come to. -/
theorem step_cases (state : State) (program : Program) :
    (∃ instruction effect, program.get? state.counter = some instruction ∧
        state.Yields instruction effect) ∨
      ∃ fault, state.Fails program fault := by
  cases hget : program.get? state.counter with
  | none => exact .inr ⟨_, .outside hget⟩
  | some instruction =>
    cases heffect : state.effect instruction with
    | ok effect => exact .inl ⟨instruction, effect, rfl, effect_eq_ok_iff.mp heffect⟩
    | error fault => exact .inr ⟨fault, .refused hget (effect_eq_error_iff.mp heffect)⟩

/-- A fault in a run that goes on becomes its status, and nothing else changes. -/
theorem step_of_fault {fault : Fault} (hrun : state.status = .running)
    (hfault : (state.step program).1 = .error fault) :
    state.Fails program fault ∧
      (state.step program).2 = { state with status := .faulted fault } := by
  rcases state.step_cases program with ⟨instruction, effect, hget, hyields⟩ | ⟨found, hfails⟩
  · rw [step_of_yields hrun hget hyields] at hfault
    cases hfault
  · rw [step_of_fails hrun hfails] at hfault ⊢
    cases hfault
    exact ⟨hfails, rfl⟩

@[simp] theorem registers_perform (state : State) (effect : Effect) :
    (state.perform effect).registers = effect.update state.registers := by
  cases effect <;> rfl

@[simp] theorem steps_perform (state : State) (effect : Effect) :
    (state.perform effect).steps = state.steps + 1 := by
  cases effect <;> rfl

/-- A run goes on after every effect but that of `HALT`. -/
theorem status_perform (hrun : state.status = .running) (effect : Effect) :
    (state.perform effect).status = .running ∨ (state.perform effect).status = .halted := by
  cases effect with
  | halt => exact .inr rfl
  | load value | store index value | read index value | write value | goto position =>
    exact .inl hrun

/-- A step keeps what a fault does not break and no effect of an instruction of the program does. -/
theorem step_preserves {P : State → Prop}
    (hfault : ∀ {state} fault, P state → P { state with status := .faulted fault })
    (hperform : ∀ {state instruction effect}, P state → state.status = .running →
      program.get? state.counter = some instruction → state.Yields instruction effect →
      P (state.perform effect))
    (h : P state) : P (state.step program).2 := by
  by_cases hrun : state.status = .running
  · rcases state.step_cases program with ⟨instruction, effect, hget, hyields⟩ | ⟨fault, hfails⟩
    · rw [step_of_yields hrun hget hyields]
      exact hperform h hrun hget hyields
    · rw [step_of_fails hrun hfails]
      exact hfault fault h
  · rw [step_of_not_running program hrun]
    exact h

/-- A step that is not counted leaves a run that has ended. -/
theorem steps_step (state : State) (program : Program) :
    (state.step program).2.steps = state.steps + 1 ∨
      (state.step program).2.status ≠ .running ∧
        (state.step program).2.steps = state.steps := by
  by_cases hrun : state.status = .running
  · rcases state.step_cases program with ⟨instruction, effect, hget, hyields⟩ | ⟨fault, hfails⟩
    · left
      rw [step_of_yields hrun hget hyields, steps_perform]
    · right
      rw [step_of_fails hrun hfails]
      exact ⟨by simp, rfl⟩
  · right
    rw [step_of_not_running program hrun]
    exact ⟨hrun, rfl⟩

/-- The answers of one step after another and the state after them. Each step is tried, whatever
became of those before it, and each with a program of its own. -/
def stepAll (state : State) : List Program → List (Except Fault Step) × State
  | [] => ([], state)
  | program :: programs =>
      let rest := (state.step program).2.stepAll programs
      ((state.step program).1 :: rest.1, rest.2)

/-- The state after steps of the given programs. -/
def after (state : State) (programs : List Program) : State :=
  (state.stepAll programs).2

theorem after_cons (state : State) (program : Program) (programs : List Program) :
    state.after (program :: programs) = (state.step program).2.after programs := rfl

/-- What no fault and no effect breaks holds after steps of any programs. -/
theorem after_preserves {P : State → Prop} {programs : List Program}
    (hfault : ∀ {state} fault, P state → P { state with status := .faulted fault })
    (hperform : ∀ {program state instruction effect}, program ∈ programs → P state →
      state.status = .running → program.get? state.counter = some instruction →
      state.Yields instruction effect → P (state.perform effect))
    (h : P state) : P (state.after programs) := by
  induction programs generalizing state with
  | nil => exact h
  | cons program programs ih =>
    rw [after_cons]
    exact ih (fun hm => hperform (List.mem_cons_of_mem _ hm))
      (step_preserves hfault (hperform (List.mem_cons_self ..)) h)

/-- Steps keep the shape of the registers and their limit. -/
theorem registers_after (h : state.registers.WellFormed) (programs : List Program) :
    (state.after programs).registers.WellFormed ∧
      (state.after programs).registers.limit = state.registers.limit := by
  refine after_preserves (P := fun later =>
    later.registers.WellFormed ∧ later.registers.limit = state.registers.limit)
    (fun _ hs => hs) ?_ ⟨h, rfl⟩
  intro program middle instruction effect _ hs _ _ hyields
  rw [registers_perform, Effect.limit_update]
  exact ⟨Effect.wellFormed_update hs.1 hyields.fits, hs.2⟩

end State

end RandomAccess
