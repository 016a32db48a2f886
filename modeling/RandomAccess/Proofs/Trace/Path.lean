import RandomAccess.Program.Sample
import RandomAccess.Proofs.Cost.Totals
import RandomAccess.Proofs.Execution.Returning

/-!
# The path of a trace

A trace is a path through the program. Each of its steps tells where the run goes on after it: at
the next position, or at the target of a jump, decided by what the step itself has recorded of the
accumulator. The path begins at position 1, leads to the position of a failure, and ends with `HALT`
exactly if the run succeeds.
-/

namespace RandomAccess

/-- Where the run goes on after a step, as the step itself tells. Nothing is said of `HALT`. -/
structure Step.Leads (step : Step) (next : Nat) : Prop where
  /-- After an instruction that leaves the program counter alone the next position follows. -/
  following : step.instruction.managesCounter = false → next = step.position + 1
  /-- A jump goes to its target. -/
  jump : ∀ {position}, step.instruction = .jump position → next = position.toNat
  /-- A conditional jump is decided by register 0 of the step's own registers. -/
  branch : ∀ {condition position}, step.instruction = .branch condition position →
    next = if condition.holds (step.registers.get 0) then position.toNat else step.position + 1

/-- The positions that a run goes through: those of its steps, and that of its failure. -/
def Outcome.positions (outcome : Outcome) : List Nat :=
  outcome.trace.map Step.position ++ outcome.position?.toList

namespace State

variable {program : Program} {state first last after : State} {step : Step} {steps : List Step}

/-- A step records its instruction, and leads to the counter that it leaves. -/
theorem leads_of_step (hstep : state.step program = (.ok step, after))
    (hw : state.registers.WellFormed) :
    step.position = state.counter ∧ program.get? step.position = some step.instruction ∧
      step.Leads after.counter := by
  obtain ⟨-, instruction, effect, hget, hyields, rfl, rfl⟩ := step_eq_ok_iff.mp hstep
  refine ⟨rfl, hget, ?_⟩
  cases hyields with
  | load | store | arith | read | write => exact ⟨fun _ => rfl, nofun, nofun⟩
  | jump =>
    refine ⟨nofun, ?_, nofun⟩
    rintro _ ⟨⟩
    rfl
  | taken hholds =>
    refine ⟨nofun, nofun, ?_⟩
    rintro _ _ ⟨⟩
    exact (if_pos (hw.get_snapshot 0 ▸ hholds)).symm
  | untaken hholds =>
    refine ⟨nofun, nofun, ?_⟩
    rintro _ _ ⟨⟩
    exact (if_neg (hw.get_snapshot 0 ▸ hholds)).symm
  | halt => exact ⟨nofun, nofun, nofun⟩

/-- A step that succeeds ends the run exactly if it is `HALT`. -/
theorem status_of_step (hstep : state.step program = (.ok step, after)) :
    after.status = if step.instruction = .halt then .halted else .running := by
  obtain ⟨hrun, instruction, effect, -, hyields, rfl, rfl⟩ := step_eq_ok_iff.mp hstep
  cases hyields with
  | halt => rfl
  | load | store | arith | jump | taken | untaken | read | write => exact hrun

namespace Makes

/-- Steps that are made follow one another from the counter of the first state to that of the
last. -/
theorem path (h : first.Makes program steps last) (hw : first.registers.WellFormed) :
    (∀ step ∈ steps, program.get? step.position = some step.instruction) ∧
      (steps.map Step.position ++ [last.counter]).head? = some first.counter ∧
      ∀ index step next, steps[index]? = some step →
        (steps.map Step.position ++ [last.counter])[index + 1]? = some next →
        step.Leads next := by
  induction h with
  | nil => simp
  | @cons first middle last step steps hstep _ ih =>
    obtain ⟨hposition, hget, hleads⟩ := leads_of_step hstep hw
    obtain ⟨hgets, hhead, hnext⟩ := ih (wellFormed_of_step hstep hw)
    refine ⟨List.forall_mem_cons.mpr ⟨hget, hgets⟩, congrArg some hposition, ?_⟩
    rintro (_ | index) found next hfound hfollowing
    · obtain rfl := Option.some.inj hfound
      rw [List.map_cons, List.cons_append, List.getElem?_cons_succ, ← List.head?_eq_getElem?,
        hhead] at hfollowing
      obtain rfl := Option.some.inj hfollowing
      exact hleads
    · exact hnext index found next hfound hfollowing

/-- Steps that are made go on until `HALT`, and nothing follows it. -/
theorem halts (h : first.Makes program steps last) (hrun : first.status = .running) :
    (last.status = .running ∧ ∀ step ∈ steps, step.instruction ≠ .halt) ∨
      (last.status = .halted ∧ ∃ before step, steps = before ++ [step] ∧
        step.instruction = .halt ∧ ∀ earlier ∈ before, earlier.instruction ≠ .halt) := by
  induction h with
  | nil => exact .inl ⟨hrun, nofun⟩
  | @cons first middle last step steps hstep hrest ih =>
    have hstatus := status_of_step hstep
    by_cases hhalt : step.instruction = .halt
    · rw [if_pos hhalt] at hstatus
      obtain ⟨rfl, rfl⟩ := hrest.eq_of_not_running (by simp [hstatus])
      exact .inr ⟨hstatus, [], step, rfl, hhalt, nofun⟩
    · rw [if_neg hhalt] at hstatus
      rcases ih hstatus with ⟨hstill, hnone⟩ | ⟨hended, before, final, rfl, hfinal, hnone⟩
      · exact .inl ⟨hstill, List.forall_mem_cons.mpr ⟨hhalt, hnone⟩⟩
      · exact .inr ⟨hended, step :: before, final, rfl, hfinal,
          List.forall_mem_cons.mpr ⟨hhalt, hnone⟩⟩

end Makes

end State

namespace Machine

variable {machine : Machine} {input : List Int64} {outcome : Outcome}

/-- A run succeeds with `HALT` as its last step, and fails without any. -/
theorem Ends.halts (h : machine.Ends input outcome) :
    (outcome.isSuccess = false ∧ ∀ step ∈ outcome.trace, step.instruction ≠ .halt) ∨
      (outcome.isSuccess = true ∧ ∃ before last, outcome.trace = before ++ [last] ∧
        last.instruction = .halt ∧ ∀ earlier ∈ before, earlier.instruction ≠ .halt) := by
  obtain ⟨state, hmakes, ⟨hhalted, hsuccess⟩ | ⟨hrun, fault, hfailure⟩⟩ := h.makes
  · refine .inr ⟨hsuccess ▸ rfl, ?_⟩
    rcases hmakes.halts rfl with ⟨hstill, -⟩ | ⟨-, hlast⟩
    · rw [hhalted] at hstill
      cases hstill
    · exact hlast
  · refine .inl ⟨hfailure ▸ rfl, ?_⟩
    rcases hmakes.halts rfl with ⟨-, hnone⟩ | ⟨hended, -⟩
    · exact hnone
    · rw [hrun] at hended
      cases hended

/-- The positions of a run are those of its steps and the counter after them, which is left out
after `HALT`. -/
theorem Ends.positions (h : machine.Ends input outcome) :
    outcome.positions ≠ [] ∧ ∃ state,
      (machine.start input).Makes machine.program outcome.trace state ∧
        outcome.positions <+: outcome.trace.map Step.position ++ [state.counter] := by
  have hhalts := h.halts
  obtain ⟨state, hmakes, ⟨-, hsuccess⟩ | ⟨-, fault, hfailure⟩⟩ := h.makes
  · have hnone : outcome.position?.toList = [] := by rw [hsuccess]; rfl
    rw [Outcome.positions, hnone]
    refine ⟨?_, state, hmakes, ⟨[state.counter], by rw [List.append_nil]⟩⟩
    rcases hhalts with ⟨hfails, -⟩ | ⟨-, before, last, hlast, -⟩
    · rw [hsuccess] at hfails
      cases hfails
    · rw [hlast]
      simp
  · have hcounter : outcome.position?.toList = [state.counter] := by rw [hfailure]; rfl
    rw [Outcome.positions, hcounter]
    exact ⟨by simp, state, hmakes, List.prefix_rfl⟩

/-- All steps cost 1 in the uniform model, but for the `HALT` of a success. -/
theorem Ends.uniform_cost (h : machine.Ends input outcome) :
    outcome.cost.uniform =
      min (if outcome.isSuccess then outcome.trace.length - 1 else outcome.trace.length)
        Cost.ceiling := by
  have hcount {steps : List Step} (hnone : ∀ step ∈ steps, step.instruction ≠ .halt) :
      (steps.countP fun step => step.instruction ≠ .halt) = steps.length :=
    List.countP_eq_length.mpr fun step hs => decide_eq_true (hnone step hs)
  rw [Outcome.cost, Cost.uniform_analyze]
  rcases h.halts with ⟨hfails, hnone⟩ | ⟨hsucceeds, before, last, hlast, hhalt, hnone⟩
  · rw [hcount hnone, hfails]
    rfl
  · rw [hlast, List.countP_append, hcount hnone, hsucceeds]
    simp [hhalt]

end Machine

end RandomAccess
