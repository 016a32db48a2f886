import RandomAccess.Proofs.Trace.Tapes

/-!
# Unread input

The tape of a run can be exchanged for any other that begins with the values received: the same
steps are made, and the run ends in the same way. One failure alone looks at a value that it leaves
on the tape. A read whose register is refused has found the tape not empty; where the tape ends with
the values received, the same read exhausts the input instead.
-/

namespace RandomAccess

namespace Outcome

/-- The values that the reads of a run have received, one for each of them. -/
def received (outcome : Outcome) : List Int64 :=
  outcome.trace.filterMap Step.received?

/-- The run has failed at a read whose register was refused, with a value still on the tape. -/
def LooksAhead (program : Program) : Outcome → Prop
  | .failure (.registerLimit _ _) position _ => ∃ target,
      program.get? position = some (.read target)
  | .failure _ _ _ | .success _ _ => False

end Outcome

namespace State

variable {program : Program} {state first last after : State} {instruction : Instruction}
  {effect : Effect} {step : Step} {steps : List Step} {taken : List Int64}

/-- An effect that has taken some values takes them from every tape that begins with them. -/
theorem Yields.retape (h : state.Yields instruction effect)
    (htaken : state.input = taken ++ (state.perform effect).input) (rest : List Int64) :
    ({ state with input := taken ++ rest } : State).Yields instruction effect ∧
      ({ state with input := taken ++ rest } : State).perform effect =
        { state.perform effect with input := rest } := by
  -- all instructions but a read leave the tape, so nothing was taken
  have hnone (hkept : (state.perform effect).input = state.input) : taken = [] := by
    rw [hkept] at htaken
    exact List.self_eq_append_left.mp htaken
  cases h with
  | load hvalue =>
    obtain rfl := hnone rfl
    exact ⟨.load hvalue, rfl⟩
  | store hadmits =>
    obtain rfl := hnone rfl
    exact ⟨.store hadmits, rfl⟩
  | arith hvalue hresult =>
    obtain rfl := hnone rfl
    exact ⟨.arith hvalue hresult, rfl⟩
  | jump =>
    obtain rfl := hnone rfl
    exact ⟨.jump, rfl⟩
  | taken hholds =>
    obtain rfl := hnone rfl
    exact ⟨.taken hholds, rfl⟩
  | untaken hholds =>
    obtain rfl := hnone rfl
    exact ⟨.untaken hholds, rfl⟩
  | @read target value unread hinput hadmits =>
    have hcons : [value] ++ unread = taken ++ unread := by
      rwa [perform, hinput, List.tail_cons] at htaken
    obtain rfl := List.append_cancel_right hcons
    exact ⟨.read rfl hadmits, rfl⟩
  | write hvalue =>
    obtain rfl := hnone rfl
    exact ⟨.write hvalue, rfl⟩
  | halt =>
    obtain rfl := hnone rfl
    exact ⟨.halt, rfl⟩

/-- A step is made alike on every tape that begins with what it has received. -/
theorem step_retape (hstep : state.step program = (.ok step, after))
    (hw : state.registers.WellFormed) (rest : List Int64) :
    ({ state with input := step.received?.toList ++ rest } : State).step program =
      (.ok step, { after with input := rest }) := by
  have hinput := (tapes_of_step hstep hw).1
  obtain ⟨hrun, instruction, effect, hget, hyields, rfl, rfl⟩ := step_eq_ok_iff.mp hstep
  obtain ⟨hagain, hperform⟩ := hyields.retape hinput rest
  exact step_eq_ok_iff.mpr ⟨hrun, instruction, effect, hget, hagain, hperform.symm, rfl⟩

/-- Steps are made alike on every tape that begins with what they have received. -/
theorem Makes.retape (h : first.Makes program steps last) (hw : first.registers.WellFormed)
    (rest : List Int64) :
    Makes program { first with input := steps.filterMap Step.received? ++ rest } steps
      { last with input := rest } := by
  simp only [List.filterMap_eq_flatMap_toList]
  induction h with
  | nil => exact .nil
  | @cons first middle last step steps hstep _ ih =>
    rw [List.flatMap_cons, List.append_assoc]
    exact .cons (step_retape hstep hw _) (ih (wellFormed_of_step hstep hw))

/-- A fault is met on every tape, unless it is about the tape: that it is exhausted, or that a read
has a value for a register that is refused. -/
theorem Fails.retape {fault : Fault} (h : state.Fails program fault)
    (hexhausted : ∀ consumed, fault ≠ .inputExhausted consumed) {rest : List Int64}
    (hrest : ∀ index limit target, fault = .registerLimit index limit →
      program.get? state.counter = some (.read target) → rest ≠ []) :
    ({ state with input := rest } : State).Fails program fault := by
  cases h with
  | outside hget => exact .outside hget
  | refused hget hmeets =>
    cases hmeets with
    | source hsource hresolve => exact .refused hget (.source hsource hresolve)
    | result hvalue hresult => exact .refused hget (.result hvalue hresult)
    | tape hinput => exact absurd rfl (hexhausted state.consumed)
    | store hrefused => exact .refused hget (.store hrefused)
    | read hinput hrefused =>
      -- the tape is looked at before the register, so the refusal depends on it
      exact .refused hget (.read (hrest _ _ _ rfl hget) hrefused)

end State

namespace Machine

variable {machine : Machine} {input : List Int64} {outcome : Outcome}

/-- The trace of a run is made from every tape that begins with what it has received. -/
theorem makes_retape {steps : List Step} {state : State}
    (h : (machine.start input).Makes machine.program steps state) (rest : List Int64) :
    (machine.start (steps.filterMap Step.received? ++ rest)).Makes machine.program steps
      { state with input := rest } :=
  h.retape (wellFormed_start machine input) rest

/-- A run ends alike on every tape that begins with what it has received, as long as the tape goes
on where the outcome depends on that. -/
theorem Ends.retape (h : machine.Ends input outcome)
    (hexhausted : ∀ consumed, outcome.result ≠ .error (.inputExhausted consumed))
    {rest : List Int64} (hrest : outcome.LooksAhead machine.program → rest ≠ []) :
    machine.Ends (outcome.received ++ rest) outcome := by
  cases h with
  | halted hmakes hhalted hle =>
    exact (Ends.halted (makes_retape hmakes rest) hhalted hle :)
  | @faulted steps state fault hmakes hrun hfault hlt =>
    have hfails : ({ state with input := rest } : State).Fails machine.program fault := by
      refine (State.step_of_fault hrun hfault).1.retape (fun consumed he => ?_) ?_
      · exact hexhausted consumed (congrArg Except.error he)
      · rintro index limit target rfl hget
        exact hrest ⟨target, hget⟩
    exact (Ends.of_fails (makes_retape hmakes rest) hrun hfails hlt :)
  | stopped hmakes hrun hlimit hlength =>
    exact (Ends.stopped (makes_retape hmakes rest) hrun hlimit hlength :)

/-- A run that has looked ahead exhausts the input where nothing is left to look at. -/
theorem Ends.exhausted_of_looksAhead {position : Nat} (h : machine.Ends input outcome)
    (hahead : outcome.LooksAhead machine.program) (hposition : position ∈ outcome.position?) :
    machine.Ends outcome.received
      (.failure (.inputExhausted outcome.received.length) position outcome.trace) := by
  cases h with
  | halted | stopped => cases hahead
  | @faulted steps state fault hmakes hrun hfault hlt =>
    obtain rfl := Option.some.inj hposition
    cases fault with
    | registerLimit index limit =>
      obtain ⟨target, hget⟩ := hahead
      have hfails : ({ state with input := [] } : State).Fails machine.program
          (.inputExhausted state.consumed) := .refused hget (.tape rfl)
      have hends := Ends.of_fails (makes_retape hmakes []) hrun hfails hlt
      have hconsumed : state.consumed = (steps.filterMap Step.received?).length := by
        rw [(hmakes.tapes (wellFormed_start machine input)).2.1]
        exact Nat.zero_add _
      rw [List.append_nil, hconsumed] at hends
      exact hends
    | _ => cases hahead

/-- The values received are the first of the input. -/
theorem Ends.received_eq_take (h : machine.Ends input outcome) :
    outcome.received = input.take outcome.received.length := by
  obtain ⟨state, hmakes, -⟩ := h.makes
  have hinput : input = outcome.received ++ state.input :=
    (hmakes.tapes (wellFormed_start machine input)).1
  rw [hinput, List.take_left]

/-- Only the consumed input matters. All that can be seen of the values after it is whether there is
one left for a read whose register is refused. -/
theorem unread_input_is_invisible {fuel : Nat} (h : machine.run? fuel input = some outcome)
    (hexhausted : ∀ consumed, outcome.result ≠ .error (.inputExhausted consumed))
    {other : List Int64}
    (hother : other.take outcome.received.length = input.take outcome.received.length) :
    ((outcome.LooksAhead machine.program → outcome.received.length < other.length) →
        ∀ found, machine.Returns other found ↔ found = outcome) ∧
      (outcome.LooksAhead machine.program → ¬ outcome.received.length < other.length →
        ∃ position ∈ outcome.position?, ∀ found, machine.Returns other found ↔
          found = .failure (.inputExhausted outcome.received.length) position outcome.trace) := by
  have hends := returns_iff_ends.mp ⟨fuel, h⟩
  have hfirst : other.take outcome.received.length = outcome.received :=
    hother.trans hends.received_eq_take.symm
  have hsplit : outcome.received ++ other.drop outcome.received.length = other := by
    have happend := List.take_append_drop outcome.received.length other
    rwa [hfirst] at happend
  have honly {expected : Outcome} (hexpected : machine.Ends other expected) (found : Outcome) :
      machine.Returns other found ↔ found = expected := by
    have hreturns := returns_iff_ends.mpr hexpected
    exact ⟨fun hfound => hfound.unique hreturns, fun heq => heq ▸ hreturns⟩
  constructor
  · intro hmore
    refine honly (hsplit ▸ hends.retape hexhausted fun hahead => ?_)
    exact List.ne_nil_of_length_pos (List.length_drop ▸ Nat.sub_pos_of_lt (hmore hahead))
  · intro hahead hnone
    have hnil : other.drop outcome.received.length = [] :=
      List.drop_eq_nil_of_le (Nat.le_of_not_lt hnone)
    rw [hnil, List.append_nil] at hsplit
    cases hposition : outcome.position? with
    | none =>
      cases outcome with
      | success => cases hahead
      | failure => cases hposition
    | some position =>
      exact ⟨position, rfl, honly (hsplit ▸ hends.exhausted_of_looksAhead hahead hposition)⟩

/-- A read into a register that is out of bounds, after one that has received its value: the failure
is the same on another tape with a value left, and is that of the tape where there is none. -/
theorem unread_input_is_invisible_refused :
    let machine : Machine :=
      { program := .ofList [.read (.direct 1), .read (.direct 9)],
        config := { registerLimit := 4 } }
    ∃ outcome, outcome.result = .error (.registerLimit 9 4) ∧ outcome.received = [5] ∧
      (∀ found, machine.Returns [5, 8, 3] found ↔ found = outcome) ∧
      ∀ found, machine.Returns [5] found ↔
        found = .failure (.inputExhausted 1) 2 outcome.trace := by
  intro machine
  have hrun : (machine.run? 2 [5, 6]).map (fun outcome =>
      (outcome.result, outcome.position?, outcome.received)) =
        some (.error (.registerLimit 9 4), some 2, [5]) := by decide +kernel
  obtain ⟨outcome, houtcome, hviews⟩ := Option.map_eq_some_iff.mp hrun
  simp only [Prod.mk.injEq] at hviews
  obtain ⟨hresult, hposition, hreceived⟩ := hviews
  have hexhausted : ∀ consumed, outcome.result ≠ .error (.inputExhausted consumed) := by
    simp [hresult]
  have hahead : outcome.LooksAhead machine.program := by
    cases outcome with
    | success => cases hresult
    | failure fault position trace =>
      cases hresult
      cases hposition
      exact ⟨.direct 9, rfl⟩
  refine ⟨outcome, hresult, hreceived, ?_, ?_⟩
  · refine (unread_input_is_invisible houtcome hexhausted ?_).1 fun _ => ?_
    · rw [hreceived]
      rfl
    · rw [hreceived]
      decide
  · have hagain := (@unread_input_is_invisible _ _ _ 2 houtcome hexhausted [5] ?_).2 hahead ?_
    · obtain ⟨position, hat, hfound⟩ := hagain
      obtain rfl := Option.some.inj (hposition.symm.trans hat)
      rwa [hreceived] at hfound
    · rw [hreceived]
      rfl
    · rw [hreceived]
      decide

/-- It is not the values received alone that matter: a read whose register is refused tells a tape
with a value on it from an empty one, and has received nothing from either. -/
theorem refused_read_sees_unread_input :
    ¬ ∀ (machine : Machine) (input other : List Int64) (outcome : Outcome),
      machine.Returns input outcome →
      (∀ consumed, outcome.result ≠ .error (.inputExhausted consumed)) →
      other.take outcome.received.length = input.take outcome.received.length →
      ∃ found, machine.Returns other found ∧ (found == outcome) = true := by
  intro h
  let machine : Machine :=
    { program := .ofList [.read (.direct 9)], config := { registerLimit := 4 } }
  have hfull : machine.Returns [7] (.failure (.registerLimit 9 4) 1 []) := ⟨1, rfl⟩
  have hempty : machine.Returns [] (.failure (.inputExhausted 0) 1 []) := ⟨1, rfl⟩
  obtain ⟨found, hfound, hequal⟩ := h machine [7] [] _ hfull nofun rfl
  obtain rfl := hfound.unique hempty
  cases hequal

end Machine

end RandomAccess
