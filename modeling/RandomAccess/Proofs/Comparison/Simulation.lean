import Mathlib.Data.List.Forall2
import RandomAccess.Cost.Report
import RandomAccess.Proofs.Execution.Truncation
import RandomAccess.Proofs.Memory.Equality

/-!
# Simulation

Two runs are compared step by step, by a relation between states with the same counter, the same
output and the same status. If each step of one run is answered by a step of the other, the two
have the same outcomes, up to what the steps record; and if the answers come to an end, so do the
steps that they answer.
-/

namespace RandomAccess

/-- Outcomes that agree on all but the steps of their traces, which are similar one by one. -/
inductive Outcome.Alike (Similar : Step → Step → Prop) : Outcome → Outcome → Prop
  | success {output : List Int64} {trace other : List Step} : List.Forall₂ Similar trace other →
      Alike Similar (.success output trace) (.success output other)
  | failure {fault : Fault} {position : Nat} {trace other : List Step} :
      List.Forall₂ Similar trace other →
      Alike Similar (.failure fault position trace) (.failure fault position other)

section

variable {step last : Step} {trace other : List Step}

/-- Steps are equal if they have the same position, the same instruction and equal registers. -/
theorem Step.beq_iff :
    (step == last) = true ↔ step.position = last.position ∧
      step.instruction = last.instruction ∧ (step.registers == last.registers) = true := by
  cases step with
  | mk position instruction registers =>
    cases last with
    | mk atPosition atInstruction atRegisters =>
      change (position == atPosition &&
        (instruction == atInstruction && registers == atRegisters)) = true ↔ _
      simp only [Bool.and_eq_true, beq_iff_eq]

/-- Traces of equal steps are equal. -/
theorem Step.beq_of_forall₂ (h : List.Forall₂ (· == ·) trace other) : (trace == other) = true := by
  induction h with
  | nil => rfl
  | cons hstep _ ih => rw [List.cons_beq_cons, hstep, ih, Bool.and_self]

/-- Equal steps are charged the same. -/
theorem Cost.charge_congr (report : Report) (h : (step == last) = true) :
    report.charge step = report.charge last := by
  obtain ⟨-, hinstruction, hregisters⟩ := Step.beq_iff.mp h
  simp only [Report.charge, weight_congr (RegisterFile.beq_iff.mp hregisters).2, hinstruction]

/-- Traces of equal steps cost the same, on top of whatever was charged before. -/
theorem Cost.foldl_charge_congr (h : List.Forall₂ (· == ·) trace other) (report : Report) :
    trace.foldl Report.charge report = other.foldl Report.charge report := by
  induction h generalizing report with
  | nil => rfl
  | cons hstep _ ih => rw [List.foldl_cons, List.foldl_cons, charge_congr report hstep, ih]

/-- Outcomes that agree but for steps that are equal are themselves equal. -/
theorem Outcome.Alike.beq {outcome other : Outcome} (h : outcome.Alike (· == ·) other) :
    (outcome == other) = true := by
  cases h with
  | @success output trace traced htraces =>
    change (output == output && trace == traced) = true
    rw [Step.beq_of_forall₂ htraces, beq_self_eq_true, Bool.and_self]
  | @failure fault position trace traced htraces =>
    change (fault == fault && (position == position && trace == traced)) = true
    rw [Step.beq_of_forall₂ htraces, beq_self_eq_true, beq_self_eq_true, Bool.and_self,
      Bool.and_self]

/-- Such outcomes cost the same. -/
theorem Outcome.Alike.cost_eq {outcome other : Outcome} (h : outcome.Alike (· == ·) other) :
    outcome.cost = other.cost := by
  cases h with
  | success htraces | failure htraces => exact Cost.foldl_charge_congr htraces {}

end

namespace State

/-- Steps of one program are answered by steps of another. A step that succeeds is answered by a
similar one, and a fault by the same fault, unless it is one of those excepted. -/
structure Simulates (first second : Program) (Excepted : Fault → Prop)
    (Similar : Step → Step → Prop) (Related : State → State → Prop) : Prop where
  /-- Related states have the same status. -/
  status : ∀ {a b}, Related a b → b.status = a.status
  /-- Related states stand at the same position. -/
  counter : ∀ {a b}, Related a b → b.counter = a.counter
  /-- Related states have the same output. -/
  output : ∀ {a b}, Related a b → b.output = a.output
  /-- A similar step leads to related states. -/
  succeeds : ∀ {a b step after}, Related a b → a.step first = (.ok step, after) →
    ∃ other later, b.step second = (.ok other, later) ∧ Similar step other ∧ Related after later
  /-- A fault that is not excepted is met on both sides. -/
  fails : ∀ {a b fault}, Related a b → a.status = .running →
    (a.step first).1 = .error fault → Excepted fault ∨ (b.step second).1 = .error fault

variable {first second : Program} {Excepted : Fault → Prop} {Similar : Step → Step → Prop}
  {Related : State → State → Prop}

/-- Steps that are made on one side are made on the other. -/
theorem Simulates.makes (h : Simulates first second Excepted Similar Related) {a b last : State}
    {steps : List Step} (hmakes : a.Makes first steps last) (hrelated : Related a b) :
    ∃ others final, b.Makes second others final ∧ List.Forall₂ Similar steps others ∧
      Related last final := by
  induction hmakes generalizing b with
  | nil => exact ⟨[], b, .nil, .nil, hrelated⟩
  | cons hstep _ ih =>
    obtain ⟨other, later, hother, hsimilar, hafter⟩ := h.succeeds hrelated hstep
    obtain ⟨others, final, hothers, hall, hfinal⟩ := ih hafter
    exact ⟨other :: others, final, .cons hother hothers, .cons hsimilar hall, hfinal⟩

end State

namespace Machine

variable {first second : Machine} {input reached : List Int64} {Excepted : Fault → Prop}
  {Similar : Step → Step → Prop} {Related : State → State → Prop}

/-- An outcome on one side is one on the other, unless it is a fault that is excepted. -/
theorem Ends.simulated {outcome : Outcome} (hends : first.Ends input outcome)
    (h : State.Simulates first.program second.program Excepted Similar Related)
    (hstart : Related (first.start input) (second.start reached))
    (hlimit : second.config.stepLimit = first.config.stepLimit) :
    (∃ fault, outcome.result = .error fault ∧ Excepted fault) ∨
      ∃ other, second.Ends reached other ∧ outcome.Alike Similar other := by
  cases hends with
  | halted hmakes hhalted hle =>
    obtain ⟨others, final, hothers, hsimilar, hrelated⟩ := h.makes hmakes hstart
    rw [← hlimit, hsimilar.length_eq] at hle
    rw [← h.output hrelated]
    exact .inr ⟨_, .halted hothers ((h.status hrelated).trans hhalted) hle, .success hsimilar⟩
  | faulted hmakes hrun hfault hlt =>
    obtain ⟨others, final, hothers, hsimilar, hrelated⟩ := h.makes hmakes hstart
    rcases h.fails hrelated hrun hfault with hexcepted | hsame
    · exact .inl ⟨_, rfl, hexcepted⟩
    · rw [← hlimit, hsimilar.length_eq] at hlt
      rw [← h.counter hrelated]
      exact .inr ⟨_, .faulted hothers ((h.status hrelated).trans hrun) hsame hlt,
        .failure hsimilar⟩
  | stopped hmakes hrun hconfig hlength =>
    obtain ⟨others, final, hothers, hsimilar, hrelated⟩ := h.makes hmakes hstart
    rw [← hlimit] at hconfig
    rw [hsimilar.length_eq] at hlength
    rw [← h.counter hrelated]
    exact .inr ⟨_, .stopped hothers ((h.status hrelated).trans hrun) hconfig hlength,
      .failure hsimilar⟩

/-- A run whose steps are all answered by those of a run that returns does so too. -/
theorem Returns.simulated {other : Outcome} (hreturns : second.Returns reached other)
    (h : State.Simulates first.program second.program Excepted Similar Related)
    (hstart : Related (first.start input) (second.start reached))
    (hlimit : second.config.stepLimit = first.config.stepLimit) :
    ∃ outcome, first.Returns input outcome := by
  cases hconfig : first.config.stepLimit with
  | some limit => exact ⟨_, returns_runFor hconfig⟩
  | none =>
    rw [hconfig] at hlimit
    -- any steps on this side have as many answers, and the trace of the other run begins with those
    refine exists_returns_of_makes_le other.trace.length fun hmakes => ?_
    obtain ⟨others, final, hothers, hsimilar, -⟩ := h.makes hmakes hstart
    rw [hsimilar.length_eq]
    exact ((returns_iff_ends.mp hreturns).isPrefix_trace hothers (by simp [hlimit])).length_le

/-- A run and one that answers all its steps return together, with similar outcomes, unless the
former meets a fault that is excepted. -/
theorem returns_alike
    (h : State.Simulates first.program second.program Excepted Similar Related)
    (hstart : Related (first.start input) (second.start reached))
    (hlimit : second.config.stepLimit = first.config.stepLimit)
    (hnone : ∀ outcome fault, first.Returns input outcome → outcome.result = .error fault →
      ¬ Excepted fault) :
    ((∃ outcome, first.Returns input outcome) ↔ ∃ other, second.Returns reached other) ∧
      ∀ outcome other, first.Returns input outcome → second.Returns reached other →
        outcome.Alike Similar other := by
  have hfound {outcome : Outcome} (hreturns : first.Returns input outcome) :
      ∃ other, second.Returns reached other ∧ outcome.Alike Similar other := by
    rcases (returns_iff_ends.mp hreturns).simulated h hstart hlimit with
      ⟨fault, hresult, hexcepted⟩ | ⟨other, hends, halike⟩
    · exact absurd hexcepted (hnone outcome fault hreturns hresult)
    · exact ⟨other, returns_iff_ends.mpr hends, halike⟩
  refine ⟨⟨?_, ?_⟩, fun outcome other hreturns hother => ?_⟩
  · rintro ⟨outcome, hreturns⟩
    obtain ⟨other, hother, -⟩ := hfound hreturns
    exact ⟨other, hother⟩
  · rintro ⟨other, hother⟩
    exact hother.simulated h hstart hlimit
  · obtain ⟨found, hagain, halike⟩ := hfound hreturns
    rwa [hother.unique hagain]

end Machine

end RandomAccess
