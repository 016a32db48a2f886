import RandomAccess.Proofs.InPlace.Step

/-!
# Failed steps

A step that fails has changed the status of the run and nothing else, and a run that has ended is
never changed again. In place this is a matter of order: every instruction makes its last check
before its first change. It holds of every state, whether a run can reach it or not.
-/

namespace RandomAccess

theorem State.front_ne_notRunning (state : State) : state.front ≠ .error .notRunning := by
  unfold front
  split <;> simp

theorem Operand.resolve_ne_notRunning (operand : Operand) (registers : RegisterFile) :
    operand.resolve registers ≠ .error .notRunning := by
  cases operand with
  | literal value | direct address => simp [resolve]
  | indirect address =>
    simp only [resolve]
    split <;> simp

theorem Program.fetch_ne_notRunning (program : Program) (position : Nat) :
    program.fetch position ≠ .error .notRunning := by
  cases hget : program.get? position with
  | none => simp [fetch_of_get?_eq_none hget]
  | some instruction => simp [fetch_of_get? hget]

namespace InPlace

variable {α : Type} {state : State} {program : Program}

/-- An action on the registers ends as it does on them alone, and changes them alone. -/
theorem exec_onRegisters_eq_some {action : InPlace RegisterFile α} {result : Except Fault α}
    {after : State} (h : (onRegisters action).exec state = some (result, after)) :
    ∃ registers, action.exec state.registers = some (result, registers) ∧
      after = { state with registers := registers } := by
  rw [exec_onRegisters, Option.map_eq_some_iff] at h
  obtain ⟨⟨_, registers⟩, hr, he⟩ := h
  cases he
  exact ⟨registers, hr, rfl⟩

theorem readOnly_onRegisters {action : InPlace RegisterFile α} (h : action.ReadOnly) :
    (onRegisters action).ReadOnly := by
  intro state result after he
  obtain ⟨registers, hr, rfl⟩ := exec_onRegisters_eq_some he
  rw [h hr]

theorem unfailing_onRegisters {action : InPlace RegisterFile α} (h : action.Unfailing) :
    (onRegisters action).Unfailing := by
  intro state fault after he
  obtain ⟨_, hr, _⟩ := exec_onRegisters_eq_some he
  exact h hr

theorem atomic_onRegisters {action : InPlace RegisterFile α} (h : action.Atomic) :
    (onRegisters action).Atomic := by
  intro state fault after he
  obtain ⟨registers, hr, rfl⟩ := exec_onRegisters_eq_some he
  obtain ⟨rfl, hfault⟩ := h hr
  exact ⟨rfl, hfault⟩

theorem readOnly_resolve (operand : Operand) : (resolve operand).ReadOnly :=
  readOnly_get.bind fun _ => readOnly_ofExcept _

theorem atomic_resolve (operand : Operand) : (resolve operand).Atomic :=
  readOnly_get.bind_atomic unfailing_get.atomic fun state =>
    atomic_ofExcept (operand.resolve_ne_notRunning state.registers)

theorem unfailing_follow (flow : Flow) : (follow flow).Unfailing := by
  cases flow with
  | next =>
    exact unfailing_get.bind fun _ => (unfailing_word _).bind fun _ => unfailing_modify _
  | goto position => exact unfailing_modify _
  | halt => exact unfailing_modify _

theorem unfailing_proceed (flow : Flow) : (proceed flow).Unfailing :=
  (unfailing_follow flow).bind fun _ => unfailing_get.bind fun _ =>
    (unfailing_word _).bind fun _ => unfailing_modify _

/-- Each instruction makes its last check before its first change. -/
theorem atomic_execute (instruction : Instruction) : (execute instruction).Atomic := by
  have hcell := readOnly_onRegisters (readOnly_cell 0)
  have hread := unfailing_onRegisters (unfailing_cell 0)
  cases instruction with
  | load operand =>
    refine (readOnly_resolve operand).bind_atomic (atomic_resolve operand) fun value => ?_
    have hset := unfailing_onRegisters (unfailing_setCell 0 value)
    exact (hset.bind fun _ => unfailing_pure _).atomic
  | store target =>
    refine hcell.bind_atomic hread.atomic fun accumulator => ?_
    have hassign := atomic_onRegisters (atomic_assign target.address accumulator)
    exact hassign.bind_unfailing fun _ => unfailing_pure _
  | arith op operand =>
    refine (readOnly_resolve operand).bind_atomic (atomic_resolve operand) fun value => ?_
    have hcombine := atomic_onRegisters (atomic_combine op value)
    exact hcombine.bind_unfailing fun _ => unfailing_pure _
  | jump position => exact (unfailing_pure _).atomic
  | branch condition position =>
    refine hcell.bind_atomic hread.atomic fun accumulator => ?_
    split
    · exact (unfailing_pure _).atomic
    · exact (unfailing_get.bind fun _ => (unfailing_word _).bind fun _ => unfailing_pure _).atomic
  | read target =>
    refine readOnly_get.bind_atomic unfailing_get.atomic fun state => ?_
    refine (readOnly_ofExcept _).bind_atomic (atomic_ofExcept state.front_ne_notRunning) ?_
    intro value
    have hassign := atomic_onRegisters (atomic_assign target.address value)
    refine hassign.bind_unfailing fun _ => ?_
    exact (unfailing_modify _).bind fun _ => (unfailing_word _).bind fun _ =>
      (unfailing_modify _).bind fun _ => unfailing_pure _
  | write operand =>
    refine (readOnly_resolve operand).bind_atomic (atomic_resolve operand) fun value => ?_
    exact ((unfailing_modify _).bind fun _ => unfailing_pure _).atomic
  | halt => exact (unfailing_pure _).atomic

theorem atomic_advance (program : Program) : (advance program).Atomic := by
  refine readOnly_get.bind_atomic unfailing_get.atomic fun state => ?_
  have hfetch := program.fetch_ne_notRunning state.counter
  refine (readOnly_ofExcept _).bind_atomic (atomic_ofExcept hfetch) fun instruction => ?_
  have hcarry := (atomic_execute instruction).bind_unfailing unfailing_proceed
  refine hcarry.bind_unfailing fun _ => ?_
  exact (unfailing_onRegisters unfailing_snapshot).bind fun _ => unfailing_pure _

/-- A step that fails in place has changed the status alone, and it has changed nothing if the run
had ended before. Nothing is asked of the state. -/
theorem exec_step_error {fault : Fault} {after : State}
    (h : (step program).exec state = some (.error fault, after)) :
    state.status = .running ∧ fault ≠ .notRunning ∧
        after = { state with status := .faulted fault } ∨
      state.status ≠ .running ∧ fault = .notRunning ∧ after = state := by
  by_cases hrun : state.status = .running
  · left
    simp only [step, exec_bind, exec_get, if_pos hrun, exec_tryCatch] at h
    split at h
    · cases h
    · cases h
    · next found middle he =>
      obtain ⟨rfl, hfault⟩ := atomic_advance program he
      rw [exec_stop] at h
      cases h
      exact ⟨hrun, hfault, rfl⟩
  · right
    simp only [step, exec_bind, exec_get, if_neg hrun, exec_throw] at h
    cases h
    exact ⟨hrun, rfl, rfl⟩

/-- A run that has ended refuses every step in place as well. -/
theorem exec_step_of_not_running (program : Program) (h : state.status ≠ .running) :
    (step program).exec state = some (.error .notRunning, state) := by
  simp only [step, exec_bind, exec_get, if_neg h, exec_throw]

end InPlace

namespace State

variable {state : State} {program : Program}

/-- The faults of instructions are about values, the tape and the registers. -/
theorem Meets.ne_notRunning {instruction : Instruction} {fault : Fault}
    (h : state.Meets instruction fault) : fault ≠ .notRunning := by
  cases h with
  | @source _ operand _ _ hresolve =>
    exact fun hf => operand.resolve_ne_notRunning state.registers (hf ▸ hresolve)
  | @result op _ value _ _ happly =>
    exact fun hf => op.apply_ne_notRunning _ value (hf ▸ happly)
  | tape | store | read => simp

/-- The fault of a step of a run that goes on has a cause in this step. -/
theorem Fails.ne_notRunning {fault : Fault} (h : state.Fails program fault) :
    fault ≠ .notRunning := by
  cases h with
  | outside => simp
  | refused _ hmeets => exact hmeets.ne_notRunning

/-- A failed step is atomic and final: in place as on values it changes nothing but the status, and
every step after it is answered with `notRunning`. -/
theorem failed_step (state : State) :
    (∀ program fault after,
      state.step program = (.error fault, after) ∨
          (InPlace.step program).exec state = some (.error fault, after) →
        state.status = .running ∧ fault ≠ .notRunning ∧
            after = { state with status := .faulted fault } ∨
          state.status ≠ .running ∧ fault = .notRunning ∧ after = state) ∧
      (state.status ≠ .running → ∀ programs : List Program,
        state.stepAll programs = (programs.map fun _ => .error .notRunning, state) ∧
          InPlace.stepAll state programs =
            some (programs.map fun _ => .error .notRunning, state)) := by
  refine ⟨?_, fun hended programs => ?_⟩
  · rintro program fault after (h | h)
    · have hanswer : (state.step program).1 = .error fault := congrArg Prod.fst h
      have hafter : (state.step program).2 = after := congrArg Prod.snd h
      by_cases hrun : state.status = .running
      · left
        obtain ⟨hfails, hstep⟩ := step_of_fault hrun hanswer
        exact ⟨hrun, hfails.ne_notRunning, hafter.symm.trans hstep⟩
      · right
        rw [step_of_not_running program hrun] at h
        cases h
        exact ⟨hrun, rfl, rfl⟩
    · exact InPlace.exec_step_error h
  · induction programs with
    | nil => exact ⟨rfl, rfl⟩
    | cons program programs ih =>
      simp only [stepAll, InPlace.stepAll, step_of_not_running program hended,
        InPlace.exec_step_of_not_running program hended, Option.bind_eq_bind, Option.bind_some,
        ih.1, ih.2]
      exact ⟨rfl, rfl⟩

/-- A value that is refused by its register stays on the tape, and the run has ended for good. -/
theorem failed_step_read :
    let state := start [5, 6] ((RegisterFile.withCapacity 8).withLimit 2)
    let program := Program.ofList [.read (.direct 3)]
    let after := { state with status := .faulted (.registerLimit 3 2) }
    state.step program = (.error (.registerLimit 3 2), after) ∧ after.input = [5, 6] ∧
      InPlace.stepAll after [program, .ofList [.halt]] =
        some ([.error .notRunning, .error .notRunning], after) := by
  intro state program after
  have hstep : (state.step program).1 = .error (.registerLimit 3 2) := rfl
  have hended : after.status ≠ .running := by simp [after]
  have hfailed := (failed_step state).1 program _ _ (.inl (Prod.ext hstep rfl))
  rcases hfailed with ⟨_, _, hafter⟩ | ⟨hrun, _⟩
  · exact ⟨Prod.ext hstep hafter, rfl, ((failed_step after).2 hended _).2⟩
  · exact absurd rfl hrun

end State

end RandomAccess
