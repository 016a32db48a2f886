import RandomAccess.Proofs.Execution.Running

/-!
# Making steps

Steps made by hand, each from the state that the one before it has left. As long as they succeed,
they determine what they record and the state they lead to. A run has made no other steps than
these: it stands at the state they lead to, or at the fault of the one that would have followed.
-/

namespace RandomAccess

namespace State

variable {program : Program} {state first middle last : State} {step : Step}
  {steps further : List Step}

/-- A step succeeds if its instruction has an effect, and then performs it. -/
theorem step_eq_ok_iff :
    state.step program = (.ok step, last) ↔
      state.status = .running ∧ ∃ instruction effect,
        program.get? state.counter = some instruction ∧ state.Yields instruction effect ∧
          last = state.perform effect ∧
          step = ⟨state.counter, instruction, last.registers.snapshot⟩ := by
  constructor
  · intro h
    by_cases hrun : state.status = .running
    · refine ⟨hrun, ?_⟩
      rcases state.step_cases program with ⟨instruction, effect, hget, hyields⟩ | ⟨fault, hfails⟩
      · rw [step_of_yields hrun hget hyields] at h
        cases h
        exact ⟨instruction, effect, hget, hyields, rfl, rfl⟩
      · rw [step_of_fails hrun hfails] at h
        cases h
    · rw [step_of_not_running program hrun] at h
      cases h
  · rintro ⟨hrun, instruction, effect, hget, hyields, rfl, rfl⟩
    exact step_of_yields hrun hget hyields

/-- A step records the position that it was fetched from, and the instruction that stands there. -/
theorem recorded_of_step (h : first.step program = (.ok step, last)) :
    step.position = first.counter ∧ program.get? step.position = some step.instruction := by
  obtain ⟨-, instruction, _, hget, -, -, rfl⟩ := step_eq_ok_iff.mp h
  exact ⟨rfl, hget⟩

/-- A step of a run that goes on fails with the fault met there, and leaves it as the status. -/
theorem fails_of_step {fault : Fault} (hrun : first.status = .running)
    (h : first.step program = (.error fault, last)) :
    first.Fails program fault ∧ last = { first with status := .faulted fault } := by
  have hfault := step_of_fault hrun (congrArg Prod.fst h)
  rwa [h] at hfault

/-- A step that succeeds keeps the shape of the registers. -/
theorem wellFormed_of_step (h : first.step program = (.ok step, last))
    (hw : first.registers.WellFormed) : last.registers.WellFormed := by
  obtain ⟨-, _, _, _, hyields, rfl, _⟩ := step_eq_ok_iff.mp h
  rw [registers_perform]
  exact Effect.wellFormed_update hw hyields.fits

/-- Steps that all succeed, with what they record and the state they lead to. -/
inductive Makes (program : Program) : State → List Step → State → Prop
  | nil {state : State} : Makes program state [] state
  | cons {first middle last : State} {step : Step} {steps : List Step} :
      first.step program = (.ok step, middle) → Makes program middle steps last →
      Makes program first (step :: steps) last

namespace Makes

/-- Nothing is made from a state whose step fails. -/
theorem eq_of_error (h : first.Makes program steps last) {fault : Fault}
    (hfault : (first.step program).1 = .error fault) : steps = [] ∧ last = first := by
  cases h with
  | nil => exact ⟨rfl, rfl⟩
  | cons hstep _ =>
    rw [hstep] at hfault
    cases hfault

/-- Nothing is made from a state that has ended. -/
theorem eq_of_not_running (h : first.Makes program steps last) (hended : first.status ≠ .running) :
    steps = [] ∧ last = first :=
  h.eq_of_error (congrArg Prod.fst (step_of_not_running program hended))

/-- Making steps is asking for as many of them and getting no fault. -/
theorem stepAll (h : first.Makes program steps last) :
    first.stepAll (.replicate steps.length program) = (steps.map .ok, last) := by
  induction h with
  | nil => rfl
  | cons hstep _ ih =>
    rw [List.length_cons, List.replicate_succ, State.stepAll, hstep, ih]
    rfl

/-- Asking for as many steps leads to the same state. -/
theorem after (h : first.Makes program steps last) :
    first.after (.replicate steps.length program) = last :=
  congrArg Prod.snd h.stepAll

/-- Each step that is made is counted. -/
theorem steps_eq (h : first.Makes program steps last) :
    last.steps = first.steps + steps.length := by
  induction h with
  | nil => rfl
  | cons hstep _ ih =>
    obtain ⟨_, _, _, _, _, rfl, _⟩ := step_eq_ok_iff.mp hstep
    rw [ih, steps_perform, List.length_cons]
    omega

/-- The registers keep their shape and their limit. -/
theorem registers (h : first.Makes program steps last) (hw : first.registers.WellFormed) :
    last.registers.WellFormed ∧ last.registers.limit = first.registers.limit := by
  have hafter := registers_after hw (.replicate steps.length program)
  rwa [h.after] at hafter

/-- Only `HALT` ends a run among the steps that succeed. -/
theorem status (h : first.Makes program steps last) (hrun : first.status = .running) :
    last.status = .running ∨ last.status = .halted := by
  induction h with
  | nil => exact .inl hrun
  | cons hstep hrest ih =>
    obtain ⟨_, _, effect, _, _, rfl, _⟩ := step_eq_ok_iff.mp hstep
    cases effect with
    | halt =>
      obtain ⟨_, rfl⟩ := hrest.eq_of_not_running (by simp [perform])
      exact .inr rfl
    | load value | store index value | read index value | write value | goto position =>
      exact ih hrun

/-- Of two sequences of steps from one state the longer one continues the other. -/
theorem continues (h : first.Makes program steps middle)
    (hlonger : first.Makes program further last) (hle : steps.length ≤ further.length) :
    ∃ rest, further = steps ++ rest ∧ middle.Makes program rest last := by
  induction h generalizing further with
  | nil => exact ⟨further, rfl, hlonger⟩
  | cons hstep _ ih =>
    cases hlonger with
    | nil => exact absurd hle (Nat.not_succ_le_zero _)
    | cons hother hrest =>
      cases hstep.symm.trans hother
      obtain ⟨rest, rfl, hmakes⟩ := ih hrest (Nat.le_of_succ_le_succ hle)
      exact ⟨rest, rfl, hmakes⟩

/-- Steps that nothing follows begin with all others that can be made from the same state. -/
theorem isPrefix (h : first.Makes program steps middle) (hlast : first.Makes program further last)
    (hnone : ∀ {rest}, steps = further ++ rest → last.Makes program rest middle → rest = []) :
    steps <+: further := by
  rcases Nat.le_total steps.length further.length with hle | hle
  · obtain ⟨rest, hrest, -⟩ := h.continues hlast hle
    exact ⟨rest, hrest.symm⟩
  · obtain ⟨rest, hrest, hmore⟩ := hlast.continues h hle
    refine ⟨[], ?_⟩
    rw [List.append_nil, hrest, hnone hrest hmore, List.append_nil]

end Makes

/-- A step that fails leaves a run that has ended, at the state before it. -/
theorem eq_of_step_error {fault : Fault} (h : first.step program = (.error fault, last)) :
    last.status ≠ .running ∧ ∃ status, last = { first with status } := by
  by_cases hrun : first.status = .running
  · obtain ⟨-, rfl⟩ := fails_of_step hrun h
    exact ⟨nofun, _, rfl⟩
  · rw [step_of_not_running program hrun] at h
    cases h
    exact ⟨hrun, first.status, rfl⟩

/-- A run that has ended refuses every step that is asked of it. -/
theorem stepAll_of_not_running (hended : state.status ≠ .running) (programs : List Program) :
    state.stepAll programs = (programs.map fun _ => .error .notRunning, state) := by
  induction programs with
  | nil => rfl
  | cons program programs ih =>
    rw [State.stepAll, step_of_not_running program hended, ih]
    rfl

/-- The steps that succeed if a number of them is asked for. -/
def executed (state : State) (program : Program) (count : Nat) : List Step :=
  (state.stepAll (.replicate count program)).1.filterMap Except.toOption

/-- If steps are asked for, those that succeed are made one after another. The others change
nothing but the status of the state that these lead to. -/
theorem makes_executed (state : State) (program : Program) (count : Nat) :
    ∃ last status, state.Makes program (state.executed program count) last ∧
      state.after (.replicate count program) = { last with status } := by
  induction count generalizing state with
  | zero => exact ⟨state, state.status, .nil, rfl⟩
  | succ count ih =>
    rw [List.replicate_succ, after_cons]
    cases hstep : state.step program with
    | mk answer middle =>
      cases answer with
      | ok step =>
        have hexecuted :
            state.executed program (count + 1) = step :: middle.executed program count := by
          simp [executed, List.replicate_succ, State.stepAll, hstep, Except.toOption]
        obtain ⟨last, status, hmakes, hafter⟩ := ih middle
        exact ⟨last, status, hexecuted ▸ .cons hstep hmakes, hafter⟩
      | error fault =>
        obtain ⟨hended, status, hmiddle⟩ := eq_of_step_error hstep
        have hrest := stepAll_of_not_running hended (.replicate count program)
        have hnone : state.executed program (count + 1) = [] := by
          simp [executed, List.replicate_succ, State.stepAll, hstep, hrest, Except.toOption]
        refine ⟨state, status, hnone ▸ .nil, ?_⟩
        rw [after, hrest, hmiddle]

end State

namespace Run

variable {program : Program} {run : Run}

/-- A run is carried on for two numbers of steps in turn. -/
theorem advance_add (program : Program) (count more : Nat) (run : Run) :
    advance program (count + more) run = advance program more (advance program count run) := by
  induction count generalizing run with
  | zero => rw [Nat.zero_add, advance]
  | succ count ih =>
    rw [Nat.succ_add]
    by_cases hrun : run.state.status = .running
    · simp only [advance, hrun, ih]
    · rw [advance_of_not_running hrun, advance_of_not_running hrun, advance_of_not_running hrun]

/-- A run makes the steps that can be made by hand. -/
theorem advance_of_makes {steps : List Step} {last : State}
    (h : run.state.Makes program steps last) :
    advance program steps.length run = ⟨last, run.trace ++ steps.toArray⟩ := by
  obtain ⟨state, trace⟩ := run
  dsimp only at h ⊢
  induction h generalizing trace with
  | nil => simp [advance]
  | @cons first middle last step steps hstep hrest ih =>
    have hrun := (State.step_eq_ok_iff.mp hstep).1
    simp only [List.length_cons, advance, hrun, step_snd, hstep, record, ih]
    simp

/-- After a number of steps a run stands where the steps made by hand lead, after that number of
them unless it has ended; or it stands at the fault of the next one. -/
theorem advance_cases (program : Program) (count : Nat) (run : Run) :
    ∃ steps state, run.state.Makes program steps state ∧
      ((advance program count run = ⟨state, run.trace ++ steps.toArray⟩ ∧
          steps.length ≤ count ∧ (state.status = .running → steps.length = count)) ∨
        (state.status = .running ∧ steps.length < count ∧ ∃ fault,
          (state.step program).1 = .error fault ∧
          advance program count run =
            ⟨{ state with status := .faulted fault }, run.trace ++ steps.toArray⟩)) := by
  induction count generalizing run with
  | zero => exact ⟨[], run.state, .nil, .inl ⟨by simp [advance], Nat.le_refl 0, fun _ => rfl⟩⟩
  | succ count ih =>
    by_cases hrun : run.state.status = .running
    · simp only [advance, hrun, step_snd]
      cases hstep : run.state.step program with
      | mk answer middle =>
        cases answer with
        | error fault =>
          obtain ⟨-, rfl⟩ := State.fails_of_step hrun hstep
          refine ⟨[], run.state, .nil, .inr ⟨hrun, Nat.succ_pos count, fault, ?_, ?_⟩⟩
          · rw [hstep]
          · rw [record, advance_of_not_running (by simp)]
            simp
        | ok step =>
          obtain ⟨steps, state, hmakes, hcases⟩ := ih (run.record (.ok step, middle))
          refine ⟨step :: steps, state, .cons hstep hmakes, ?_⟩
          rcases hcases with ⟨hadvance, hle, hlength⟩ | ⟨hstill, hlt, fault, hfault, hadvance⟩
          · refine .inl ⟨?_, Nat.succ_le_succ hle, fun hs => congrArg Nat.succ (hlength hs)⟩
            rw [hadvance, record]
            simp
          · refine .inr ⟨hstill, Nat.succ_lt_succ hlt, fault, hfault, ?_⟩
            rw [hadvance, record]
            simp
    · refine ⟨[], run.state, .nil, .inl ⟨?_, Nat.zero_le _, fun hs => absurd hs hrun⟩⟩
      rw [advance_of_not_running hrun]
      simp

/-- A run that still goes on has made all its steps. -/
theorem steps_advance {count : Nat}
    (hrun : (advance program count run).state.status = .running) :
    (advance program count run).state.steps = run.state.steps + count := by
  obtain ⟨steps, state, hmakes, ⟨hadvance, -, hlength⟩ | ⟨-, -, fault, -, hadvance⟩⟩ :=
    advance_cases program count run
  · rw [hadvance] at hrun ⊢
    rw [← hlength hrun]
    exact hmakes.steps_eq
  · rw [hadvance] at hrun
    cases hrun

end Run

end RandomAccess
