import RandomAccess.Proofs.Comparison.Simulation

/-!
# Capacity is invisible

The same program is run on two register files that hold the same registers, in storage of different
sizes that grows at different times, and with limits of which one may be wider. Every step of the
narrower run is answered on the other side; only a register that is past the narrower limit alone
tells the two apart. So the size of the storage has no part in what a run returns and costs.
-/

namespace RandomAccess

variable {narrow wide index : Nat}

/-- The faults of registers that only the wider limit allows. -/
def Fault.PastNarrow (narrow wide : Nat) (fault : Fault) : Prop :=
  narrow < wide ∧ ∃ index, fault = .registerLimit index narrow

namespace RegisterFile

/-- Two register files hold the same registers, under limits of their own up to which storage can
be had. -/
structure Mirrors (narrow wide : Nat) (a b : RegisterFile) : Prop where
  /-- The registers and the highest index written are the same. -/
  same : (a == b) = true
  /-- The first register file has the shape that register files keep. -/
  wellFormed_left : a.WellFormed
  /-- So has the second. -/
  wellFormed_right : b.WellFormed
  /-- The limit of the first. -/
  limit_left : a.limit = narrow
  /-- The limit of the second. -/
  limit_right : b.limit = wide
  /-- The second limit may be wider. -/
  narrow_le_wide : narrow ≤ wide
  /-- Storage can be had up to the wider limit. -/
  wide_le_largest : wide ≤ largestCapacity

variable {a b : RegisterFile}

namespace Mirrors

theorem get (h : a.Mirrors narrow wide b) (index : Nat) : a.get index = b.get index :=
  (beq_iff.mp h.same).2 index

theorem accumulator (h : a.Mirrors narrow wide b) : a.accumulator = b.accumulator :=
  h.get 0

theorem resolve (h : a.Mirrors narrow wide b) (operand : Operand) :
    operand.resolve b = operand.resolve a :=
  (operand.resolve_congr h.get).symm

theorem admits_left_iff (h : a.Mirrors narrow wide b) : a.admits index = true ↔ index < narrow := by
  rw [admits_iff_lt (h.limit_left ▸ Nat.le_trans h.narrow_le_wide h.wide_le_largest), h.limit_left]

theorem admits_right_iff (h : a.Mirrors narrow wide b) : b.admits index = true ↔ index < wide := by
  rw [admits_iff_lt (h.limit_right ▸ h.wide_le_largest), h.limit_right]

/-- What the narrower register file admits the wider one admits too. -/
theorem admits (h : a.Mirrors narrow wide b) (hadmits : a.admits index = true) :
    b.admits index = true :=
  h.admits_right_iff.mpr (Nat.lt_of_lt_of_le (h.admits_left_iff.mp hadmits) h.narrow_le_wide)

/-- What the narrower register file refuses is past its limit alone, or the other one refuses it
in the same words. -/
theorem refuses (h : a.Mirrors narrow wide b) (hrefused : ¬ a.admits index = true) :
    (Fault.registerLimit index a.limit).PastNarrow narrow wide ∨
      ¬ b.admits index = true ∧ a.limit = b.limit := by
  rcases Nat.lt_or_eq_of_le h.narrow_le_wide with hlt | rfl
  · exact .inl ⟨hlt, index, by rw [h.limit_left]⟩
  · refine .inr ⟨?_, h.limit_left.trans h.limit_right.symm⟩
    rwa [h.admits_right_iff, ← h.admits_left_iff]

/-- An effect that both admit leaves them alike. -/
theorem update (h : a.Mirrors narrow wide b) {effect : Effect} (ha : effect.Fits a)
    (hb : effect.Fits b) : (effect.update a).Mirrors narrow wide (effect.update b) where
  same := by
    cases effect with
    | load value => exact beq_load h.same h.wellFormed_left h.wellFormed_right value
    | store index value | read index value =>
      exact beq_write h.same h.wellFormed_left h.wellFormed_right value (lt_limit_of_admits ha)
        (lt_limit_of_admits hb)
    | write value | goto position | halt => exact h.same
  wellFormed_left := Effect.wellFormed_update h.wellFormed_left ha
  wellFormed_right := Effect.wellFormed_update h.wellFormed_right hb
  limit_left := (Effect.limit_update effect a).trans h.limit_left
  limit_right := (Effect.limit_update effect b).trans h.limit_right
  narrow_le_wide := h.narrow_le_wide
  wide_le_largest := h.wide_le_largest

end Mirrors

/-- New register files mirror each other, whatever their capacities. -/
theorem mirrors_withCapacity (capacity other : Nat) {limit wider : Nat}
    (hle : max limit 1 ≤ max wider 1) (hlargest : max wider 1 ≤ largestCapacity) :
    ((withCapacity capacity).withLimit limit).Mirrors (max limit 1) (max wider 1)
      ((withCapacity other).withLimit wider) where
  same := beq_iff.mpr ⟨rfl, fun index => by simp⟩
  wellFormed_left := (wellFormed_withCapacity capacity).withLimit limit
  wellFormed_right := (wellFormed_withCapacity other).withLimit wider
  limit_left := rfl
  limit_right := rfl
  narrow_le_wide := hle
  wide_le_largest := hlargest

end RegisterFile

namespace State

variable {state : State} {registers : RegisterFile} {program : Program} {instruction : Instruction}

/-- States that differ in their register files alone, and these mirror each other. -/
def Mirrors (narrow wide : Nat) (a b : State) : Prop :=
  ∃ registers, a.registers.Mirrors narrow wide registers ∧ b = { a with registers }

/-- An effect changes the registers and the rest of a state apart from each other. -/
theorem perform_registers (state : State) (registers : RegisterFile) (effect : Effect) :
    ({ state with registers } : State).perform effect =
      { state.perform effect with registers := effect.update registers } := by
  cases effect <;> rfl

/-- An instruction does the same on both sides. -/
theorem Yields.mirrored {effect : Effect} (h : state.Yields instruction effect)
    (hm : state.registers.Mirrors narrow wide registers) :
    ({ state with registers } : State).Yields instruction effect := by
  cases h with
  | load hvalue => exact .load ((hm.resolve _).trans hvalue)
  | store hadmits =>
    rw [hm.accumulator]
    exact .store (hm.admits hadmits)
  | arith hvalue hresult =>
    rw [hm.accumulator] at hresult
    exact .arith ((hm.resolve _).trans hvalue) hresult
  | jump => exact .jump
  | taken hholds => exact .taken (hm.accumulator ▸ hholds)
  | untaken hholds => exact .untaken (hm.accumulator ▸ hholds)
  | read hinput hadmits => exact .read hinput (hm.admits hadmits)
  | write hvalue => exact .write ((hm.resolve _).trans hvalue)
  | halt => exact .halt

/-- A fault is met on both sides, unless it is a register that only the wider limit allows. -/
theorem Meets.mirrored {fault : Fault} (h : state.Meets instruction fault)
    (hm : state.registers.Mirrors narrow wide registers) :
    fault.PastNarrow narrow wide ∨
      ({ state with registers } : State).Meets instruction fault := by
  cases h with
  | source hsource hresolve =>
    exact .inr (.source hsource ((hm.resolve _).trans hresolve))
  | result hvalue hresult =>
    rw [hm.accumulator] at hresult
    exact .inr (.result ((hm.resolve _).trans hvalue) hresult)
  | tape hinput => exact .inr (.tape hinput)
  | store hrefused =>
    rcases hm.refuses hrefused with hpast | ⟨hright, hlimit⟩
    · exact .inl hpast
    · rw [hlimit]
      exact .inr (.store hright)
  | read hinput hrefused =>
    rcases hm.refuses hrefused with hpast | ⟨hright, hlimit⟩
    · exact .inl hpast
    · rw [hlimit]
      exact .inr (.read hinput hright)

/-- A fault that is not excepted is met by the steps on both sides. -/
theorem Fails.mirrored {fault : Fault} (h : state.Fails program fault)
    (hm : state.registers.Mirrors narrow wide registers) :
    fault.PastNarrow narrow wide ∨ ({ state with registers } : State).Fails program fault := by
  cases h with
  | outside hget => exact .inr (.outside hget)
  | refused hget hmeets => exact (hmeets.mirrored hm).imp_right (.refused hget)

/-- The steps of a program are answered by its own steps on register files that mirror. -/
theorem simulates_mirrors (program : Program) (narrow wide : Nat) :
    Simulates program program (Fault.PastNarrow narrow wide) (· == ·) (Mirrors narrow wide) where
  status := by
    rintro a _ ⟨registers, -, rfl⟩
    rfl
  counter := by
    rintro a _ ⟨registers, -, rfl⟩
    rfl
  output := by
    rintro a _ ⟨registers, -, rfl⟩
    rfl
  succeeds := by
    rintro a _ step after ⟨registers, hm, rfl⟩ hstep
    obtain ⟨hrun, instruction, effect, hget, hyields, rfl, rfl⟩ := step_eq_ok_iff.mp hstep
    have hother := hyields.mirrored hm
    have hupdate := hm.update hyields.fits hother.fits
    refine ⟨_, _, step_of_yields hrun hget hother, Step.beq_iff.mpr ⟨rfl, rfl, ?_⟩,
      effect.update registers, ?_, perform_registers a registers effect⟩
    · rw [registers_perform, registers_perform]
      exact RegisterFile.beq_snapshot hupdate.same hupdate.wellFormed_left
        hupdate.wellFormed_right
    · rwa [registers_perform]
  fails := by
    rintro a _ fault ⟨registers, hm, rfl⟩ hrun hfault
    have hstill : ({ a with registers } : State).status = .running := hrun
    exact ((step_of_fault hrun hfault).1.mirrored hm).imp_right fun hother =>
      congrArg Prod.fst (step_of_fails hstill hother)

end State

namespace Machine

/-- The size of the storage cannot be seen. Capacities are arbitrary, and a wider limit of registers
makes no difference unless the run under the narrower one is refused a register. -/
theorem capacity_is_invisible (program : Program) (input : List Int64) (first second : Config)
    (hsteps : first.stepLimit = second.stepLimit)
    (hle : max first.registerLimit 1 ≤ max second.registerLimit 1)
    (hlargest : max second.registerLimit 1 ≤ RegisterFile.largestCapacity)
    (hadmitted : max first.registerLimit 1 = max second.registerLimit 1 ∨
      ∀ outcome, Returns ⟨program, first⟩ input outcome →
        ∀ index limit, outcome.result ≠ .error (.registerLimit index limit)) :
    ((∃ outcome, Returns ⟨program, first⟩ input outcome) ↔
        ∃ outcome, Returns ⟨program, second⟩ input outcome) ∧
      ∀ outcome other, Returns ⟨program, first⟩ input outcome →
        Returns ⟨program, second⟩ input other →
        (outcome == other) = true ∧ outcome.cost = other.cost := by
  have hsimulates := State.simulates_mirrors program (max first.registerLimit 1)
    (max second.registerLimit 1)
  have hstart : State.Mirrors _ _ (start ⟨program, first⟩ input) (start ⟨program, second⟩ input) :=
    ⟨_, RegisterFile.mirrors_withCapacity _ _ hle hlargest, rfl⟩
  obtain ⟨hreturn, halike⟩ := returns_alike hsimulates hstart hsteps.symm <| by
    rintro outcome _ h hresult ⟨hlt, index, rfl⟩
    rcases hadmitted with hsame | hnone
    · exact absurd hsame (Nat.ne_of_lt hlt)
    · exact hnone outcome h _ _ hresult
  refine ⟨hreturn, fun outcome other h hother => ?_⟩
  have hsimilar := halike outcome other h hother
  exact ⟨hsimilar.beq, hsimilar.cost_eq⟩

/-- A store that makes the storage of the one machine grow from the accumulator alone, and cut its
last doubling to the limit, finds its register at hand in the other, which has storage past its own
limit. -/
theorem capacity_is_invisible_regrown :
    let program := Program.ofList [.load (.literal 5), .store (.direct 33), .write (.direct 33),
      .halt]
    let first : Config := { registerCapacity := 0, registerLimit := 34 }
    let second : Config := { registerCapacity := 64, registerLimit := 50 }
    ∃ outcome other, run? ⟨program, first⟩ 4 [] = some outcome ∧
      run? ⟨program, second⟩ 4 [] = some other ∧ outcome.result = .ok [5] ∧
      (outcome == other) = true ∧ outcome.cost = other.cost := by
  intro program first second
  have hfirst : (run? ⟨program, first⟩ 4 []).map Outcome.result = some (.ok [5]) := by
    decide +kernel
  have hsecond : (run? ⟨program, second⟩ 4 []).isSome = true := by decide +kernel
  obtain ⟨outcome, houtcome, hresult⟩ := Option.map_eq_some_iff.mp hfirst
  obtain ⟨other, hother⟩ := Option.isSome_iff_exists.mp hsecond
  have hadmitted : ∀ found, Returns ⟨program, first⟩ [] found →
      ∀ index limit, found.result ≠ .error (.registerLimit index limit) := by
    intro found hfound index limit hrefused
    obtain rfl := hfound.unique ⟨4, houtcome⟩
    rw [hresult] at hrefused
    cases hrefused
  have hsame := (capacity_is_invisible program [] first second rfl (by decide) (by decide)
    (.inr hadmitted)).2 outcome other ⟨4, houtcome⟩ ⟨4, hother⟩
  exact ⟨outcome, other, houtcome, hother, hresult, hsame⟩

end Machine

end RandomAccess
