import RandomAccess.Proofs.Execution.Making

/-!
# Returning

The run of a machine is described in three ways. It makes as many steps as it may and looks at what
has become of them; it is a loop that holds the limit against the state's own count before each
step; and it ends where steps made by hand halt, fault or come to the limit. The three agree on
every outcome, and a run that never ends has none in any of them.
-/

namespace RandomAccess

namespace Machine

/-- The run on an input returns with an outcome. -/
def Returns (machine : Machine) (input : List Int64) (outcome : Outcome) : Prop :=
  ∃ fuel, machine.run? fuel input = some outcome

/-- The loop of a run: what a run becomes by its turns. A turn looks at the status, then at the
limit, and then makes a step. -/
inductive Loops (machine : Machine) : Run → Run → Prop
  | ended {run : Run} : run.state.status ≠ .running → Loops machine run run
  | stopped {run : Run} {limit : Nat} : run.state.status = .running →
      machine.config.stepLimit = some limit → limit ≤ run.state.steps →
      Loops machine run
        { run with state := { run.state with status := .faulted (.stepLimitExceeded limit) } }
  | stepped {run final : Run} : run.state.status = .running →
      (∀ limit ∈ machine.config.stepLimit, run.state.steps < limit) →
      Loops machine (run.step machine.program).2 final → Loops machine run final

/-- How a run ends, told by steps that are made by hand from its first state. A run that halts with
the last step allowed to it has succeeded; one that would fault with the step after it has come to
its limit. -/
inductive Ends (machine : Machine) (input : List Int64) : Outcome → Prop
  | halted {steps : List Step} {state : State} :
      (machine.start input).Makes machine.program steps state → state.status = .halted →
      (∀ limit ∈ machine.config.stepLimit, steps.length ≤ limit) →
      Ends machine input (.success state.output.toList steps)
  | faulted {steps : List Step} {state : State} {fault : Fault} :
      (machine.start input).Makes machine.program steps state → state.status = .running →
      (state.step machine.program).1 = .error fault →
      (∀ limit ∈ machine.config.stepLimit, steps.length < limit) →
      Ends machine input (.failure fault state.counter steps)
  | stopped {steps : List Step} {state : State} {limit : Nat} :
      (machine.start input).Makes machine.program steps state → state.status = .running →
      machine.config.stepLimit = some limit → steps.length = limit →
      Ends machine input (.failure (.stepLimitExceeded limit) state.counter steps)

variable {machine : Machine} {input : List Int64} {outcome : Outcome} {count : Nat}

/-- The registers of the first state have the shape that all later ones keep. -/
theorem wellFormed_start (machine : Machine) (input : List Int64) :
    (machine.start input).registers.WellFormed :=
  (RegisterFile.wellFormed_withCapacity _).withLimit _

/-- A machine starts with its own limit of registers, and every register holds 0. -/
theorem registers_start (machine : Machine) (input : List Int64) :
    (machine.start input).registers.limit = max machine.config.registerLimit 1 ∧
      ∀ index, (machine.start input).registers.get index = 0 :=
  ⟨rfl, fun index => by
    rw [start, State.start, RegisterFile.get_withLimit, RegisterFile.get_withCapacity]⟩

/-- A run returns what has become of it after some steps that it may make, if it has ended by then
or may make no more. -/
theorem returns_iff :
    machine.Returns input outcome ↔
      ∃ count, (∀ limit ∈ machine.config.stepLimit, count ≤ limit) ∧
        ((machine.runTo count input).outcome? = some outcome ∨
          machine.config.stepLimit = some count ∧ machine.runFor count input = outcome) := by
  constructor
  · rintro ⟨fuel, h⟩
    unfold run? at h
    split at h
    · next limit hlimit =>
      simp only [hlimit, Option.mem_some_iff, forall_eq']
      split at h
      · exact ⟨limit, Nat.le_refl limit, .inr ⟨rfl, Option.some.inj h⟩⟩
      · next hlt => exact ⟨fuel, Nat.le_of_not_le hlt, .inl h⟩
    · next hlimit =>
      refine ⟨fuel, ?_, .inl h⟩
      simp [hlimit]
  · rintro ⟨count, hcount, h | ⟨hlimit, h⟩⟩
    · refine ⟨count, ?_⟩
      unfold run?
      split
      · next limit hlimit =>
        split
        · next hle =>
          obtain rfl := Nat.le_antisymm (hcount limit hlimit) hle
          rw [runFor, Run.outcomeAt, h, Option.getD_some]
        · exact h
      · exact h
    · refine ⟨count, ?_⟩
      simp only [run?, hlimit, Nat.le_refl, if_true, h]

/-- Under a limit a run returns. -/
theorem returns_runFor {limit : Nat} (hlimit : machine.config.stepLimit = some limit) :
    machine.Returns input (machine.runFor limit input) :=
  returns_iff.mpr ⟨limit, by simp [hlimit], .inr ⟨hlimit, rfl⟩⟩

/-- After a number of turns a run stands where steps made by hand lead: it has halted there, it
goes on after as many steps, or it has met the fault of the step that would have followed. -/
theorem runTo_cases (machine : Machine) (count : Nat) (input : List Int64) :
    ∃ steps state, (machine.start input).Makes machine.program steps state ∧
      ((state.status = .halted ∧ steps.length ≤ count ∧
          machine.runTo count input = ⟨state, steps.toArray⟩) ∨
        (state.status = .running ∧ steps.length = count ∧
          machine.runTo count input = ⟨state, steps.toArray⟩) ∨
        (state.status = .running ∧ steps.length < count ∧ ∃ fault,
          (state.step machine.program).1 = .error fault ∧
          machine.runTo count input =
            ⟨{ state with status := .faulted fault }, steps.toArray⟩)) := by
  obtain ⟨steps, state, hmakes, hcases⟩ :=
    Run.advance_cases machine.program count (.start (machine.start input))
  simp only [Run.start, Array.empty_append] at hcases
  refine ⟨steps, state, hmakes, ?_⟩
  rcases hcases with ⟨hadvance, hle, hlength⟩ | hfaulted
  · rcases hmakes.status rfl with hrun | hhalted
    · exact .inr (.inl ⟨hrun, hlength hrun, hadvance⟩)
    · exact .inl ⟨hhalted, hle, hadvance⟩
  · exact .inr (.inr hfaulted)

/-- Without a limit a run that does not go on for a number of steps returns what has become of it
by then. -/
theorem returns_of_makes_lt (bound : Nat) (hlimit : machine.config.stepLimit = none)
    (h : ∀ {steps state}, (machine.start input).Makes machine.program steps state →
      state.status = .running → steps.length < bound) :
    machine.Returns input (machine.runFor bound input) := by
  have hended : (machine.runTo bound input).state.status ≠ .running := by
    obtain ⟨steps, state, hmakes, ⟨hhalted, -, hrun⟩ | ⟨hstill, hlength, -⟩ |
      ⟨-, -, fault, -, hrun⟩⟩ := machine.runTo_cases bound input
    · simp [hrun, hhalted]
    · exact absurd (h hmakes hstill) (by omega)
    · simp [hrun]
  have houtcome := Run.outcome?_of_not_running hended bound
  exact returns_iff.mpr ⟨bound, by simp [hlimit], .inl houtcome⟩

/-- A run from whose start no more than a number of steps can be made returns. -/
theorem exists_returns_of_makes_le (bound : Nat)
    (h : ∀ {steps state}, (machine.start input).Makes machine.program steps state →
      steps.length ≤ bound) : ∃ outcome, machine.Returns input outcome := by
  cases hconfig : machine.config.stepLimit with
  | some limit => exact ⟨_, returns_runFor hconfig⟩
  | none =>
    have hbound {steps : List Step} {state : State}
        (hmakes : (machine.start input).Makes machine.program steps state)
        (_ : state.status = .running) : steps.length < bound + 1 :=
      Nat.lt_succ_of_le (h hmakes)
    exact ⟨_, returns_of_makes_lt (bound + 1) hconfig hbound⟩

/-- A run ends by hand as it ends by itself. -/
theorem returns_iff_ends : machine.Returns input outcome ↔ machine.Ends input outcome := by
  constructor
  · intro h
    obtain ⟨count, hcount, h⟩ := returns_iff.mp h
    have hended {found : Outcome} (hfound : (machine.runTo count input).outcome? = some found) :
        found = outcome := by
      rw [runFor, Run.outcomeAt, hfound] at h
      rcases h with h | ⟨-, h⟩
      · exact Option.some.inj h
      · exact h
    obtain ⟨steps, state, hmakes, ⟨hhalted, hle, hrun⟩ | ⟨hstill, hlength, hrun⟩ |
      ⟨hstill, hlt, fault, hfault, hrun⟩⟩ := machine.runTo_cases count input
    · obtain rfl := hended (by rw [hrun, Run.outcome?, hhalted])
      exact .halted hmakes hhalted fun limit hl => Nat.le_trans hle (hcount limit hl)
    · rw [runFor, hrun, Run.outcomeAt_of_running hstill, Run.outcome?, hstill] at h
      obtain ⟨hlimit, rfl⟩ := h.resolve_left (by simp)
      exact .stopped hmakes hstill hlimit hlength
    · obtain rfl : .failure fault state.counter steps = outcome := hended (by rw [hrun]; rfl)
      exact .faulted hmakes hstill hfault fun limit hl => Nat.lt_of_lt_of_le hlt (hcount limit hl)
  · intro h
    cases h with
    | @halted steps state hmakes hhalted hle =>
      refine returns_iff.mpr ⟨steps.length, hle, .inl ?_⟩
      rw [runTo, Run.advance_of_makes hmakes]
      simp [Run.outcome?, hhalted, Run.start]
    | @faulted steps state fault hmakes hrun hfault hlt =>
      refine returns_iff.mpr ⟨steps.length + 1, hlt, .inl ?_⟩
      rw [runTo, Run.advance_add, Run.advance_of_makes hmakes]
      have hfails := (State.step_of_fault hrun hfault).1
      simp [Run.advance, hrun, Run.step_snd, State.step_of_fails hrun hfails, Run.record,
        Run.outcome?, Run.start]
    | @stopped steps state limit hmakes hrun hlimit hlength =>
      refine returns_iff.mpr ⟨limit, by simp [hlimit], .inr ⟨hlimit, ?_⟩⟩
      rw [runFor, runTo, ← hlength, Run.advance_of_makes hmakes, Run.outcomeAt_of_running hrun]
      simp [Run.start]

/-- A run ends with the fault that is met after its steps, if one more was allowed. -/
theorem Ends.of_fails {steps : List Step} {state : State} {fault : Fault}
    (hmakes : (machine.start input).Makes machine.program steps state)
    (hrun : state.status = .running) (hfails : state.Fails machine.program fault)
    (hlt : ∀ limit ∈ machine.config.stepLimit, steps.length < limit) :
    machine.Ends input (.failure fault state.counter steps) :=
  .faulted hmakes hrun (congrArg Prod.fst (State.step_of_fails hrun hfails)) hlt

/-- The trace of a run leads to a halted state with its output, or to the state at the position of
its failure. -/
theorem Ends.makes (h : machine.Ends input outcome) :
    ∃ state, (machine.start input).Makes machine.program outcome.trace state ∧
      (state.status = .halted ∧ outcome = .success state.output.toList outcome.trace ∨
        state.status = .running ∧ ∃ fault,
          outcome = .failure fault state.counter outcome.trace) := by
  cases h with
  | halted hmakes hhalted _ => exact ⟨_, hmakes, .inl ⟨hhalted, rfl⟩⟩
  | faulted hmakes hrun _ _ => exact ⟨_, hmakes, .inr ⟨hrun, _, rfl⟩⟩
  | stopped hmakes hrun _ _ => exact ⟨_, hmakes, .inr ⟨hrun, _, rfl⟩⟩

/-- A failure is met by the step that would have followed its trace, or it is the limit of steps. -/
theorem Ends.of_failure {fault : Fault} {position : Nat} {trace : List Step}
    (h : machine.Ends input (.failure fault position trace)) :
    ∃ state, (machine.start input).Makes machine.program trace state ∧
      state.counter = position ∧
      (state.Fails machine.program fault ∨ ∃ limit, fault = .stepLimitExceeded limit ∧
        machine.config.stepLimit = some limit ∧ trace.length = limit) := by
  cases h with
  | @faulted _ state _ hmakes hrun hfault _ =>
    exact ⟨state, hmakes, rfl, .inl (State.step_of_fault hrun hfault).1⟩
  | @stopped _ state limit hmakes _ hlimit hlength =>
    exact ⟨state, hmakes, rfl, .inr ⟨limit, rfl, hlimit, hlength⟩⟩

/-- The loop of a run that has ended leaves it as it is. -/
theorem Loops.eq_of_not_running {run final : Run} (h : machine.Loops run final)
    (hended : run.state.status ≠ .running) : final = run := by
  cases h with
  | ended _ => rfl
  | stopped hrun _ _ => exact absurd hrun hended
  | stepped hrun _ _ => exact absurd hrun hended

/-- The loop makes nothing else of a run. -/
theorem Loops.unique {run final other : Run} (h : machine.Loops run final)
    (hother : machine.Loops run other) : other = final := by
  induction h with
  | ended hended => exact hother.eq_of_not_running hended
  | stopped hrun hlimit hle =>
    cases hother with
    | ended hended => exact absurd hrun hended
    | stopped _ hsame _ =>
      obtain rfl := Option.some.inj (hlimit.symm.trans hsame)
      rfl
    | stepped _ hmore _ => exact absurd (hmore _ hlimit) (Nat.not_lt_of_le hle)
  | stepped hrun hmore _ ih =>
    cases hother with
    | ended hended => exact absurd hrun hended
    | stopped _ hlimit hle => exact absurd (hmore _ hlimit) (Nat.not_lt_of_le hle)
    | stepped _ _ hrest => exact ih hrest

/-- The loop makes the steps that are made by hand, records them, and changes nothing but the
status of the state that they lead to. -/
theorem Loops.makes {run final : Run} (h : machine.Loops run final) :
    ∃ steps state status, run.state.Makes machine.program steps state ∧
      final = ⟨{ state with status }, run.trace ++ steps.toArray⟩ := by
  induction h with
  | @ended run _ => exact ⟨[], run.state, run.state.status, .nil, by simp⟩
  | @stopped run limit _ _ _ =>
    exact ⟨[], run.state, .faulted (.stepLimitExceeded limit), .nil, by simp⟩
  | @stepped run final hrun _ hloops ih =>
    rw [Run.step_snd] at hloops ih
    cases hstep : run.state.step machine.program with
    | mk answer middle =>
      rw [hstep] at hloops ih
      cases answer with
      | ok step =>
        obtain ⟨steps, state, status, hmakes, rfl⟩ := ih
        exact ⟨step :: steps, state, status, .cons hstep hmakes, by simp [Run.record]⟩
      | error fault =>
        obtain ⟨-, rfl⟩ := State.fails_of_step hrun hstep
        obtain rfl := hloops.eq_of_not_running (by simp [Run.record])
        exact ⟨[], run.state, .faulted fault, .nil, by simp [Run.record]⟩

/-- The loop carries a run on as far as the limit allows, and ends it there if it still goes on. -/
theorem Loops.advance {run final : Run} (h : machine.Loops run final)
    (hsteps : ∀ limit ∈ machine.config.stepLimit, run.state.steps ≤ limit) :
    ∃ count, (∀ limit ∈ machine.config.stepLimit, run.state.steps + count ≤ limit) ∧
      (final = Run.advance machine.program count run ∧ final.state.status ≠ .running ∨
        machine.config.stepLimit = some (run.state.steps + count) ∧
          final.outcome? = some
            ((Run.advance machine.program count run).outcomeAt (run.state.steps + count))) := by
  induction h with
  | ended hended => exact ⟨0, hsteps, .inl ⟨rfl, hended⟩⟩
  | @stopped run limit hrun hlimit hle =>
    obtain rfl := Nat.le_antisymm hle (hsteps limit hlimit)
    refine ⟨0, hsteps, .inr ⟨hlimit, ?_⟩⟩
    rw [Nat.add_zero, Run.advance, Run.outcomeAt_of_running hrun]
    rfl
  | @stepped run final hrun hmore hloops ih =>
    rw [Run.step_snd] at hloops ih
    rcases run.state.steps_step machine.program with hcounted | ⟨hended, hcounted⟩
    · rw [Run.state_record, hcounted] at ih
      obtain ⟨count, hcount, hcases⟩ := ih hmore
      rw [Nat.add_right_comm] at hcount hcases
      refine ⟨count + 1, hcount, ?_⟩
      rw [Nat.add_assoc] at hcases
      simpa only [Run.advance, hrun, Run.step_snd] using hcases
    · rw [← Run.state_record run] at hended
      obtain rfl := hloops.eq_of_not_running hended
      refine ⟨1, hmore, .inl ⟨?_, hended⟩⟩
      simp only [Run.advance, hrun, Run.step_snd]

/-- What the loop makes of a run that was carried on is what it makes of the run. -/
theorem loops_of_advance {run final : Run} {count : Nat}
    (hcount : ∀ limit ∈ machine.config.stepLimit, run.state.steps + count ≤ limit)
    (h : machine.Loops (Run.advance machine.program count run) final) :
    machine.Loops run final := by
  induction count generalizing run with
  | zero => exact h
  | succ count ih =>
    by_cases hrun : run.state.status = .running
    · refine .stepped hrun (fun limit hl => ?_) (ih (fun limit hl => ?_) ?_)
      · have hle := hcount limit hl
        omega
      · have hle := hcount limit hl
        rw [Run.step_snd, Run.state_record]
        rcases run.state.steps_step machine.program with hcounted | ⟨-, hcounted⟩
        · omega
        · omega
      · simpa only [Run.advance, hrun] using h
    · rwa [Run.advance_of_not_running hrun] at h

/-- A run returns the outcome of what its loop makes of it. -/
theorem returns_iff_loops :
    machine.Returns input outcome ↔
      ∃ final, machine.Loops (.start (machine.start input)) final ∧
        final.outcome? = some outcome := by
  -- the loop starts with no step made, so the steps of a run are those that its state counts
  have hfirst : (Run.start (machine.start input)).state.steps = 0 := rfl
  rw [returns_iff]
  constructor
  · rintro ⟨count, hcount, h⟩
    have hrest : ∀ limit ∈ machine.config.stepLimit,
        (Run.start (machine.start input)).state.steps + count ≤ limit := by
      rwa [hfirst, Nat.zero_add]
    by_cases hrun : (machine.runTo count input).state.status = .running
    · have hnone : (machine.runTo count input).outcome? = none := by
        simp only [Run.outcome?, hrun]
      rw [hnone] at h
      obtain ⟨hlimit, rfl⟩ := h.resolve_left (by simp)
      have hsteps := Run.steps_advance hrun
      refine ⟨_, loops_of_advance hrest (.stopped hrun hlimit (by rw [hsteps]; omega)), ?_⟩
      rw [runFor, Run.outcomeAt_of_running hrun]
      rfl
    · refine ⟨_, loops_of_advance hrest (.ended hrun), ?_⟩
      rcases h with h | ⟨-, rfl⟩
      · exact h
      · exact Run.outcome?_of_not_running hrun count
  · rintro ⟨final, hloops, h⟩
    obtain ⟨count, hcount, hcases⟩ := hloops.advance fun limit _ => Nat.zero_le limit
    rw [hfirst, Nat.zero_add] at hcases hcount
    refine ⟨count, hcount, ?_⟩
    rcases hcases with ⟨rfl, -⟩ | ⟨hlimit, hfinal⟩
    · exact .inl h
    · exact .inr ⟨hlimit, Option.some.inj (hfinal.symm.trans h)⟩

/-- A run has no more than one outcome. -/
theorem Returns.unique {other : Outcome} (h : machine.Returns input outcome)
    (hother : machine.Returns input other) : outcome = other := by
  obtain ⟨final, hloops, houtcome⟩ := returns_iff_loops.mp h
  obtain ⟨otherFinal, hotherLoops, hotherOutcome⟩ := returns_iff_loops.mp hother
  obtain rfl := hotherLoops.unique hloops
  exact Option.some.inj (houtcome.symm.trans hotherOutcome)

/-- What a run ends with is all that it returns. -/
theorem Ends.returns_iff (h : machine.Ends input outcome) (other : Outcome) :
    machine.Returns input other ↔ other = outcome := by
  have hreturns := returns_iff_ends.mpr h
  exact ⟨fun hother => hother.unique hreturns, fun heq => heq ▸ hreturns⟩

/-- A run ends in one way only. -/
theorem Ends.unique {other : Outcome} (h : machine.Ends input outcome)
    (hother : machine.Ends input other) : other = outcome :=
  (h.returns_iff other).mp (returns_iff_ends.mpr hother)

end Machine

end RandomAccess
