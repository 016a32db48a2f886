import RandomAccess.Proofs.Execution.Causes
import RandomAccess.Proofs.Execution.Returning

/-!
# Limits of steps

A limit of steps makes every run return. It cuts the run short or does nothing: a run that does not
come to its limit is the same under every wider limit and under none, and the trace of one that
does is the beginning of the trace that it has under the others.
-/

namespace RandomAccess

namespace Machine

/-- The machine with another limit of steps, or with none. -/
def withStepLimit (machine : Machine) (limit : Option Nat) : Machine :=
  { machine with config.stepLimit := limit }

variable {machine : Machine} {input : List Int64} {outcome : Outcome} {limit : Nat}

namespace Ends

/-- No more steps are made than the limit allows. -/
theorem length_trace_le (h : machine.Ends input outcome)
    (hlimit : machine.config.stepLimit = some limit) : outcome.trace.length ≤ limit := by
  cases h with
  | halted _ _ hle => exact hle limit hlimit
  | faulted _ _ _ hlt => exact Nat.le_of_lt (hlt limit hlimit)
  | stopped _ _ hsame hlength =>
    obtain rfl := Option.some.inj (hlimit.symm.trans hsame)
    exact Nat.le_of_eq hlength

/-- A run that comes to its limit has made all the steps allowed to it, and still goes on. -/
theorem of_stepLimitExceeded (h : machine.Ends input outcome)
    (hresult : outcome.result = .error (.stepLimitExceeded limit)) :
    ∃ state, (machine.start input).Makes machine.program outcome.trace state ∧
      state.status = .running ∧ outcome.trace.length = limit := by
  cases h with
  | halted => cases hresult
  | faulted _ hrun hfault _ =>
    cases hresult
    exact absurd rfl ((State.step_of_fault hrun hfault).1.ne_stepLimitExceeded limit)
  | stopped hmakes hrun _ hlength =>
    cases hresult
    exact ⟨_, hmakes, hrun, hlength⟩

/-- The trace of a run begins with the steps that are made by hand, as far as its limit allows. -/
theorem isPrefix_trace {steps : List Step} {state : State} (h : machine.Ends input outcome)
    (hmakes : (machine.start input).Makes machine.program steps state)
    (hlimit : ∀ limit ∈ machine.config.stepLimit, steps.length ≤ limit) :
    steps <+: outcome.trace := by
  -- no step by hand follows those of the trace
  cases h with
  | halted htrace hhalted _ =>
    exact hmakes.isPrefix htrace fun _ hmore => (hmore.eq_of_not_running (by simp [hhalted])).1
  | faulted htrace _ hfault _ =>
    exact hmakes.isPrefix htrace fun _ hmore => (hmore.eq_of_error hfault).1
  | @stopped trace _ bound htrace _ hbound hlength =>
    refine hmakes.isPrefix htrace fun {rest} hrest _ => List.eq_nil_of_length_eq_zero ?_
    have hle := hlimit bound hbound
    rw [hrest, Outcome.trace, List.length_append] at hle
    omega

/-- A run that does not come to its limit ends in the same way under a wider one. -/
theorem widen {wider : Option Nat} (h : (machine.withStepLimit (some limit)).Ends input outcome)
    (hresult : outcome.result ≠ .error (.stepLimitExceeded limit))
    (hwider : ∀ bound ∈ wider, limit ≤ bound) :
    (machine.withStepLimit wider).Ends input outcome := by
  cases h with
  | halted hmakes hhalted hle =>
    exact .halted hmakes hhalted fun bound hb => Nat.le_trans (hle limit rfl) (hwider bound hb)
  | faulted hmakes hrun hfault hlt =>
    exact .faulted hmakes hrun hfault fun bound hb =>
      Nat.lt_of_lt_of_le (hlt limit rfl) (hwider bound hb)
  | stopped _ _ hlimit _ =>
    obtain rfl := Option.some.inj hlimit
    exact absurd rfl hresult

end Ends

/-- A limit of steps only truncates. A run that does not come to its limit is the same under every
wider one and under none, and all those runs begin with the steps of one that does. -/
theorem limit_truncates (machine : Machine) (input : List Int64) (limit : Nat) :
    let limited := machine.withStepLimit (some limit)
    (∀ outcome, limited.Returns input outcome ↔ limited.Ends input outcome) ∧
      (∀ outcome, limited.Returns input outcome ↔
        ∃ final, limited.Loops (.start (limited.start input)) final ∧
          final.outcome? = some outcome) ∧
      ∃ outcome, (∀ other, limited.Returns input other ↔ other = outcome) ∧
        outcome.trace.length ≤ limit ∧
        ∀ wider : Option Nat, (∀ bound ∈ wider, limit ≤ bound) →
          (outcome.result ≠ .error (.stepLimitExceeded limit) →
            ∀ later, (machine.withStepLimit wider).Returns input later ↔ later = outcome) ∧
          (outcome.result = .error (.stepLimitExceeded limit) → outcome.trace.length = limit ∧
            ∀ later, (machine.withStepLimit wider).Returns input later →
              later.trace.take limit = outcome.trace) := by
  intro limited
  have hreturns : limited.Returns input (limited.runFor limit input) := returns_runFor rfl
  have hends := returns_iff_ends.mp hreturns
  refine ⟨fun _ => returns_iff_ends, fun _ => returns_iff_loops, _,
    fun other => ⟨fun h => h.unique hreturns, fun h => h ▸ hreturns⟩,
    hends.length_trace_le rfl, fun wider hwider => ⟨fun hresult later => ?_, fun hresult => ?_⟩⟩
  · have hsame := returns_iff_ends.mpr (hends.widen hresult hwider)
    exact ⟨fun h => h.unique hsame, fun h => h ▸ hsame⟩
  · obtain ⟨state, hmakes, -, hlength⟩ := hends.of_stepLimitExceeded hresult
    refine ⟨hlength, fun later hlater => ?_⟩
    have hprefix := (returns_iff_ends.mp hlater).isPrefix_trace hmakes
      fun bound hb => Nat.le_trans (Nat.le_of_eq hlength) (hwider bound hb)
    have htake := List.prefix_iff_eq_take.mp hprefix
    rw [hlength] at htake
    exact htake.symm

/-- A limit after the first step hides the division by zero that a wider one lets the run meet, and
the longer run begins with the shorter one. -/
theorem limit_truncates_fault :
    let program := Program.ofList [.load (.literal 5), .arith .div (.literal 0)]
    let machine : Machine := { program }
    ∃ short long,
      (machine.withStepLimit (some 1)).run? 1 [] = some short ∧
        short.result = .error (.stepLimitExceeded 1) ∧
      (machine.withStepLimit none).run? 2 [] = some long ∧
        long.result = .error .divisionByZero ∧
      long.trace.take 1 = short.trace := by
  intro program machine
  obtain ⟨-, -, short, hshort, -, hwider⟩ := limit_truncates machine [] 1
  obtain rfl := (hshort _).mp ⟨1, rfl⟩
  obtain ⟨-, htake⟩ := hwider none (by simp)
  exact ⟨_, _, rfl, rfl, rfl, rfl, (htake rfl).2 _ ⟨2, rfl⟩⟩

end Machine

end RandomAccess
