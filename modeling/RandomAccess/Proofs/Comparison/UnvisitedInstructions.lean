import RandomAccess.Proofs.Execution.Causes
import RandomAccess.Proofs.Trace.Path

/-!
# Unvisited instructions

A step looks at its program only to fetch the instruction at the program counter. So a run is the
same in every program that has the same instructions where it fetches them, whatever stands
elsewhere and however long the program is. The length is told by one fault alone, that of a program
counter that was lost.
-/

namespace RandomAccess

namespace Program

/-- The program with more instructions after its last one. -/
def append (program : Program) (more : Array Instruction) : Program :=
  ⟨program.instructions ++ more⟩

/-- What is appended moves no instruction. -/
theorem get?_append {program : Program} {position : Nat} {instruction : Instruction}
    (h : program.get? position = some instruction) (more : Array Instruction) :
    (program.append more).get? position = some instruction := by
  obtain ⟨hpos, hle⟩ := le_size_of_get? h
  have hindex : position - 1 < program.instructions.size := Nat.sub_one_lt_of_le hpos hle
  unfold get? at h ⊢
  rwa [append, Array.getElem?_append_left hindex]

end Program

/-- The positions from which a run has fetched: those that it goes through, but for the one at which
it stands when it comes to its limit. -/
def Outcome.fetched (outcome : Outcome) : List Nat :=
  match outcome.result with
  | .error (.stepLimitExceeded _) => outcome.trace.map Step.position
  | .ok _ | .error _ => outcome.positions

/-- What was fetched is the instructions of the steps and the one at which a fault was met. -/
theorem Outcome.mem_fetched_iff {outcome : Outcome} {position : Nat} :
    position ∈ outcome.fetched ↔ (∃ step ∈ outcome.trace, step.position = position) ∨
      (position ∈ outcome.position? ∧
        ∀ limit, outcome.result ≠ .error (.stepLimitExceeded limit)) := by
  unfold fetched
  split
  · next limit hlimit => simp [hlimit]
  · next output hresult => simp [positions, hresult]
  · next fault hfault hresult =>
    have hnone : ∀ limit, outcome.result ≠ .error (.stepLimitExceeded limit) := fun limit he =>
      hfault limit (Except.error.inj (hresult.symm.trans he))
    simp [positions, hnone]

namespace State

variable {program other : Program} {state first last : State} {step : Step} {steps : List Step}

/-- A step is made alike in every program that has its instruction. -/
theorem step_of_agrees (h : state.step program = (.ok step, last))
    (hagrees : other.get? step.position = program.get? step.position) :
    state.step other = (.ok step, last) := by
  obtain ⟨hrun, instruction, effect, hget, hyields, rfl, rfl⟩ := step_eq_ok_iff.mp h
  exact step_of_yields hrun (hagrees.trans hget) hyields

/-- Steps are made alike in every program that has their instructions. -/
theorem Makes.of_agrees (h : first.Makes program steps last)
    (hagrees : ∀ step ∈ steps, other.get? step.position = program.get? step.position) :
    first.Makes other steps last := by
  induction h with
  | nil => exact .nil
  | cons hstep _ ih =>
    obtain ⟨hfirst, hrest⟩ := List.forall_mem_cons.mp hagrees
    exact .cons (step_of_agrees hstep hfirst) (ih hrest)

/-- A fault is met at an instruction, unless the program counter was lost. -/
theorem Fails.exists_meets {fault : Fault} (h : state.Fails program fault)
    (hfound : ∀ position size, fault ≠ .invalidProgramCounter position size) :
    ∃ instruction, program.get? state.counter = some instruction ∧
      state.Meets instruction fault := by
  cases h with
  | outside hget => exact absurd rfl (hfound _ _)
  | refused hget hmeets => exact ⟨_, hget, hmeets⟩

/-- A fault is met alike in every program that has the instruction it is met at. A lost program
counter is met at none, and tells the size of the program. -/
theorem Fails.of_agrees {fault : Fault} (h : state.Fails program fault)
    (hfound : ∀ position size, fault ≠ .invalidProgramCounter position size)
    (hagrees : other.get? state.counter = program.get? state.counter) :
    state.Fails other fault := by
  obtain ⟨instruction, hget, hmeets⟩ := h.exists_meets hfound
  exact .refused (hagrees.trans hget) hmeets

end State

namespace Machine

variable {machine : Machine} {input : List Int64} {outcome : Outcome}

/-- A run that has not lost its counter has fetched an instruction from each position. -/
theorem Ends.exists_get?_of_mem_fetched (h : machine.Ends input outcome)
    (hfound : ∀ position size, outcome.result ≠ .error (.invalidProgramCounter position size))
    {position : Nat} (hmem : position ∈ outcome.fetched) :
    ∃ instruction, machine.program.get? position = some instruction := by
  rcases Outcome.mem_fetched_iff.mp hmem with ⟨step, hstep, rfl⟩ | ⟨hposition, hlimit⟩
  · obtain ⟨state, hmakes, -⟩ := h.makes
    exact ⟨_, (hmakes.path (wellFormed_start machine input)).1 step hstep⟩
  · cases outcome with
    | success => cases hposition
    | failure fault found trace =>
      cases hposition
      obtain ⟨state, -, rfl, hfails | ⟨limit, rfl, -⟩⟩ := h.of_failure
      · obtain ⟨instruction, hget, -⟩ :=
          hfails.exists_meets fun position size he => hfound position size (he ▸ rfl)
        exact ⟨instruction, hget⟩
      · exact absurd rfl (hlimit limit)

/-- A run ends alike in every program that agrees where it has fetched. -/
theorem Ends.of_agrees (h : machine.Ends input outcome)
    (hfound : ∀ position size, outcome.result ≠ .error (.invalidProgramCounter position size))
    {other : Program}
    (hagrees : ∀ position ∈ outcome.fetched,
      other.get? position = machine.program.get? position) :
    Ends { machine with program := other } input outcome := by
  have hsteps : ∀ step ∈ outcome.trace,
      other.get? step.position = machine.program.get? step.position :=
    fun step hstep => hagrees _ (Outcome.mem_fetched_iff.mpr (.inl ⟨step, hstep, rfl⟩))
  cases h with
  | halted hmakes hhalted hle => exact .halted (hmakes.of_agrees hsteps) hhalted hle
  | faulted hmakes hrun hfault hlt =>
    have hfails := (State.step_of_fault hrun hfault).1
    refine .of_fails (hmakes.of_agrees hsteps) hrun (hfails.of_agrees ?_ (hagrees _ ?_)) hlt
    · exact fun position size he => hfound position size (congrArg Except.error he)
    · refine Outcome.mem_fetched_iff.mpr (.inr ⟨rfl, fun limit he => ?_⟩)
      exact hfails.ne_stepLimitExceeded limit (Except.error.inj he)
  | stopped hmakes hrun hlimit hlength =>
    exact .stopped (hmakes.of_agrees hsteps) hrun hlimit hlength

/-- Only the visited instructions matter. Unless a run has lost its counter, every program with the
same instructions where it has fetched them returns its outcome, whatever else it holds. -/
theorem unvisited_instructions_are_invisible {fuel : Nat}
    (h : machine.run? fuel input = some outcome)
    (hfound : ∀ position size, outcome.result ≠ .error (.invalidProgramCounter position size)) :
    (∀ other : Program,
        (∀ position ∈ outcome.fetched, other.get? position = machine.program.get? position) →
        ∀ found, Returns { machine with program := other } input found ↔ found = outcome) ∧
      ∀ more found,
        Returns { machine with program := machine.program.append more } input found ↔
          found = outcome := by
  have hends := returns_iff_ends.mp ⟨fuel, h⟩
  refine ⟨fun other hagrees => (hends.of_agrees hfound hagrees).returns_iff, fun more => ?_⟩
  refine (hends.of_agrees hfound fun position hmem => ?_).returns_iff
  obtain ⟨instruction, hget⟩ := hends.exists_get?_of_mem_fetched hfound hmem
  rw [hget]
  exact Program.get?_append hget more

/-- A jump leaps over the third instruction and divides by zero at the fourth: another instruction
in the third place is not seen, and neither is one after the fourth. -/
theorem unvisited_instructions_are_invisible_leapt :
    let program := Program.ofList
      [.read (.literal 1), .jump 4, .halt, .arith .div (.literal 0)]
    let other := Program.ofList
      [.read (.literal 1), .jump 4, .jump 1, .arith .div (.literal 0), .write (.direct 1)]
    ∃ outcome, outcome.result = .error .divisionByZero ∧ outcome.fetched = [1, 2, 4] ∧
      (∀ found, Returns { program } [7] found ↔ found = outcome) ∧
      (∀ found, Returns { program := other } [7] found ↔ found = outcome) ∧
      ∀ found, Returns { program := program.append #[.halt] } [7] found ↔ found = outcome := by
  intro program other
  have hrun : (run? { program } 3 [7]).map (fun outcome => (outcome.result, outcome.fetched)) =
      some (.error .divisionByZero, [1, 2, 4]) := rfl
  obtain ⟨outcome, houtcome, hviews⟩ := Option.map_eq_some_iff.mp hrun
  obtain ⟨hresult, hfetched⟩ := Prod.mk.inj hviews
  have hfound : ∀ position size,
      outcome.result ≠ .error (.invalidProgramCounter position size) := by simp [hresult]
  have hsame := unvisited_instructions_are_invisible houtcome hfound
  refine ⟨outcome, hresult, hfetched, hsame.1 program fun _ _ => rfl, hsame.1 other ?_,
    hsame.2 #[.halt]⟩
  rw [hfetched]
  decide

end Machine

end RandomAccess
