import RandomAccess.Program.Sample
import RandomAccess.Proofs.Cost.Terms
import RandomAccess.Proofs.Execution.Derivation
import RandomAccess.Proofs.Trace.Path

/-!
# The absolute value

The first sample reads one value and writes its absolute value. A positive value takes the jump to
the end and is written as it is; any other is subtracted from 0 first, which fails for the one value
whose negative is no value.
-/

namespace RandomAccess

namespace Sample

namespace Absolute

open Ram

/-- The machine after the value was read into register 1 and loaded into register 0. -/
def loaded (value : Int) (rest : List Int) : Ram where
  registers index := if index = 0 then value else if index = 1 then value else 0
  counter := 3
  input := rest
  consumed := 1
  output := []
  halted := false

/-- The machine after the value was found not to be positive. Register 0 was cleared, and register 1
still holds the value. -/
def cleared (value : Int) (rest : List Int) : Ram :=
  ({ loaded value rest with counter := 4 }.put 0 0).proceed

variable {limit : Nat} {value : Int}

/-- The first two steps are the same for all values. -/
theorem derives_loaded (hl : 1 < limit) (value : Int) (rest : List Int) :
    Derives (program .abs) limit (.start (value :: rest))
      [⟨1, .read (.literal 1), fun index => if index = 1 then value else 0⟩,
        ⟨2, .load (.direct 1), (loaded value rest).registers⟩]
      (loaded value rest) := by
  let taken : Ram :=
    { loaded value rest with
      registers := fun index => if index = 1 then value else 0
      counter := 2 }
  have hread : Steps (program .abs) limit (.start (value :: rest)) (.read (.literal 1)) taken :=
    ⟨rfl, .read rfl hl⟩
  have hload : Steps (program .abs) limit taken (.load (.direct 1)) (loaded value rest) :=
    ⟨rfl, .load rfl⟩
  exact .cons rfl hread (.cons rfl hload .nil)

/-- A positive value takes the jump and is written. -/
theorem halts_positive (hl : 1 < limit) (hpos : 0 < value) (rest : List Int) :
    ∃ entries, Halts (program .abs) limit (value :: rest) [value] entries ∧
      entries.map Entry.position = [1, 2, 3, 6, 7] ∧
      (entries.map Entry.weight).sum = 6 + 2 * Cost.bitLength value.natAbs := by
  let jumped : Ram := { loaded value rest with counter := 6 }
  let written : Ram := { jumped with counter := 7, output := [value] }
  have hjump : Steps (program .abs) limit (loaded value rest) (.branch .positive 6) jumped :=
    ⟨rfl, .taken hpos⟩
  have hwrite : Steps (program .abs) limit jumped (.write (.direct 0)) written :=
    ⟨rfl, .write rfl⟩
  have hhalt : Steps (program .abs) limit written .halt { written with halted := true } :=
    ⟨rfl, .halt⟩
  have hlast := Derives.cons rfl hjump (.cons rfl hwrite (.cons rfl hhalt .nil))
  refine ⟨_, ⟨_, (derives_loaded hl value rest).append hlast, rfl, rfl⟩, rfl, ?_⟩
  -- one summand for each step
  let length := Cost.bitLength value.natAbs
  change 1 + (1 + length + (3 + (1 + length + (0 + 0)))) = 6 + 2 * length
  omega

/-- Any other value is about to be subtracted from 0. -/
theorem derives_cleared (hl : 1 < limit) (hnot : ¬ 0 < value) (rest : List Int) :
    ∃ entries, Derives (program .abs) limit (.start (value :: rest)) entries (cleared value rest) ∧
      entries.map Entry.position = [1, 2, 3, 4] ∧
      (entries.map Entry.weight).sum = 6 + Cost.bitLength value.natAbs := by
  let passed : Ram := { loaded value rest with counter := 4 }
  have hpass : Steps (program .abs) limit (loaded value rest) (.branch .positive 6) passed :=
    ⟨rfl, .untaken hnot⟩
  have hclear : Steps (program .abs) limit passed (.load (.literal 0)) (cleared value rest) :=
    ⟨rfl, .load rfl⟩
  have hlast := Derives.cons rfl hpass (.cons rfl hclear .nil)
  refine ⟨_, (derives_loaded hl value rest).append hlast, rfl, ?_⟩
  let length := Cost.bitLength value.natAbs
  change 1 + (1 + length + (3 + (1 + 0))) = 6 + length
  omega

/-- If its negative can be held by a register, that is written. -/
theorem halts_negated (hl : 1 < limit) (hnot : ¬ 0 < value) (hrep : Representable (0 - value))
    (rest : List Int) :
    ∃ entries, Halts (program .abs) limit (value :: rest) [0 - value] entries ∧
      entries.map Entry.position = [1, 2, 3, 4, 5, 6, 7] ∧
      (entries.map Entry.weight).sum = 8 + 3 * Cost.bitLength value.natAbs := by
  obtain ⟨entries, hcleared, hpositions, hweights⟩ := derives_cleared hl hnot rest
  let negated : Ram := ((cleared value rest).put 0 (0 - value)).proceed
  let written : Ram := { negated with counter := 7, output := [0 - value] }
  have hsub : Steps (program .abs) limit (cleared value rest) (.arith .sub (.direct 1)) negated :=
    ⟨rfl, .arith rfl rfl hrep⟩
  have hwrite : Steps (program .abs) limit negated (.write (.direct 0)) written :=
    ⟨rfl, .write rfl⟩
  have hhalt : Steps (program .abs) limit written .halt { written with halted := true } :=
    ⟨rfl, .halt⟩
  have hlast := Derives.cons rfl hsub (.cons rfl hwrite (.cons rfl hhalt .nil))
  refine ⟨_, ⟨_, hcleared.append hlast, rfl, rfl⟩, ?_, ?_⟩
  · rw [List.map_append, hpositions]
    rfl
  · let length := Cost.bitLength value.natAbs
    let lengthNegated := Cost.bitLength (0 - value).natAbs
    have hlength : lengthNegated = length :=
      congrArg Cost.bitLength (by rw [Int.zero_sub, Int.natAbs_neg])
    rw [List.map_append, List.sum_append, hweights]
    change 6 + length + (1 + length + (1 + lengthNegated + (0 + 0))) = 8 + 3 * length
    omega

/-- Else the subtraction is refused. -/
theorem stops_negated (hl : 1 < limit) (hnot : ¬ 0 < value) (hrep : ¬ Representable (0 - value))
    (rest : List Int) :
    ∃ entries, Stops (program .abs) limit (value :: rest) (.arithmeticOverflow "SUB") 5 entries ∧
      entries.map Entry.position = [1, 2, 3, 4] := by
  obtain ⟨entries, hcleared, hpositions, -⟩ := derives_cleared hl hnot rest
  have hrefuses : Refuses limit (cleared value rest) (.arith .sub (.direct 1))
      (.arithmeticOverflow "SUB") :=
    .arithmeticOverflow rfl rfl hrep
  exact ⟨entries, ⟨_, hcleared, rfl, rfl, .refused rfl hrefuses⟩, hpositions⟩

/-- The negative of a value can be held by a register unless the value is the least one. -/
theorem representable_negated_iff (value : Int64) :
    Representable (0 - value.toInt) ↔ value ≠ Int64.minValue := by
  have hbounds := representable_iff.mpr ⟨value, rfl⟩
  have hmin := Int64.toInt_minValue
  rw [ne_eq, ← Int64.toInt_inj]
  unfold Representable at hbounds ⊢
  omega

/-- A derivation of one output value tells the outcome of the machine, and what it is charged. -/
theorem ends_of_halts {value : Int64} {tail : List Int64} {number : Int} {positions : List Nat}
    {weight : Nat}
    (h : ∃ entries, Halts (program .abs) RegisterFile.defaultLimit
      (value.toInt :: tail.map Int64.toInt) [number] entries ∧
        entries.map Entry.position = positions ∧ (entries.map Entry.weight).sum = weight) :
    ∃ outcome, ({ program := program .abs } : Machine).Ends (value :: tail) outcome ∧
      (∃ output, outcome.result = .ok [output] ∧ output.toInt = number) ∧
      outcome.trace.map Step.position = positions ∧
      outcome.cost.uniform = min (positions.length - 1) Cost.ceiling ∧
      outcome.cost.logarithmic = min weight Cost.ceiling := by
  obtain ⟨entries, hhalts, rfl, rfl⟩ := h
  obtain ⟨outcome, hends, hentries, huniform, values, hresult, hvalues⟩ :=
    Machine.ends_of_halts { program := program .abs } (value :: tail) hhalts (by decide) nofun
  obtain ⟨output, rfl, houtput⟩ := List.map_eq_singleton_iff.mp hvalues
  refine ⟨outcome, hends, ⟨output, hresult, houtput⟩, Outcome.positions_of_entries hentries, ?_,
    Outcome.logarithmic_of_entries hentries⟩
  rw [List.length_map, huniform]

end Absolute

open Absolute

/-- The sample writes the absolute value of what it reads, whatever follows on the tape, and fails
for the least value alone. What it costs depends on the length of the value. -/
theorem abs_of_every_value (value : Int64) (tail : List Int64) :
    let machine : Machine := { program := program .abs }
    ∃ outcome, (∀ other, machine.Returns (value :: tail) other ↔ other = outcome) ∧
      (value ≠ Int64.minValue →
        ∃ output, outcome.result = .ok [output] ∧ output.toInt = value.toInt.natAbs) ∧
      (0 < value →
        outcome.trace.map Step.position = [1, 2, 3, 6, 7] ∧ outcome.cost.uniform = 4 ∧
          outcome.cost.logarithmic = 6 + 2 * Cost.magnitudeLength value) ∧
      (value ≤ 0 → value ≠ Int64.minValue →
        outcome.trace.map Step.position = [1, 2, 3, 4, 5, 6, 7] ∧ outcome.cost.uniform = 6 ∧
          outcome.cost.logarithmic = 8 + 3 * Cost.magnitudeLength value) ∧
      (value = Int64.minValue →
        outcome.result = .error (.arithmeticOverflow "SUB") ∧ outcome.position? = some 5 ∧
          outcome.trace.length = 4) := by
  intro machine
  have hlimit : 1 < RegisterFile.defaultLimit := by decide
  -- what is charged is far from the largest amount
  have hlength : Cost.bitLength value.toInt.natAbs ≤ 64 := Cost.magnitudeLength_le value
  have hceiling : Cost.ceiling = 18446744073709551615 := rfl
  by_cases hpos : 0 < value
  · have hvalue : 0 < value.toInt := Int64.lt_iff_toInt_lt.mp hpos
    obtain ⟨outcome, hends, ⟨output, hresult, houtput⟩, htrace, huniform, hlogarithmic⟩ :=
      ends_of_halts (halts_positive hlimit hvalue (tail.map Int64.toInt))
    refine ⟨outcome, hends.returns_iff, fun _ => ⟨output, hresult, by omega⟩,
      fun _ => ⟨htrace, huniform, ?_⟩, fun hle => absurd hpos (Int64.not_lt.mpr hle), ?_⟩
    · exact hlogarithmic.trans (Nat.min_eq_left (by omega))
    · rintro rfl
      exact absurd hpos (by decide)
  · have hvalue : ¬ 0 < value.toInt := fun h => hpos (Int64.lt_iff_toInt_lt.mpr h)
    by_cases hrep : Ram.Representable (0 - value.toInt)
    · have hmin := (representable_negated_iff value).mp hrep
      obtain ⟨outcome, hends, ⟨output, hresult, houtput⟩, htrace, huniform, hlogarithmic⟩ :=
        ends_of_halts (halts_negated hlimit hvalue hrep (tail.map Int64.toInt))
      refine ⟨outcome, hends.returns_iff, fun _ => ⟨output, hresult, by omega⟩,
        fun h => absurd h hpos, fun _ _ => ⟨htrace, huniform, ?_⟩, fun h => absurd h hmin⟩
      exact hlogarithmic.trans (Nat.min_eq_left (by omega))
    · have hmin : value = Int64.minValue :=
        not_not.mp fun h => hrep ((representable_negated_iff value).mpr h)
      obtain ⟨entries, hstops, hpositions⟩ :=
        stops_negated hlimit hvalue hrep (tail.map Int64.toInt)
      obtain ⟨outcome, hends, hentries, hresult, hposition⟩ :=
        machine.ends_of_stops (value :: tail) hstops (by decide) nofun
      have htrace := congrArg List.length
        ((Outcome.positions_of_entries hentries).trans hpositions)
      rw [List.length_map] at htrace
      exact ⟨outcome, hends.returns_iff, fun h => absurd hmin h, fun h => absurd h hpos,
        fun _ h => absurd hmin h, fun _ => ⟨hresult, hposition, htrace⟩⟩

/-- The value after the least one has the longest absolute value that is written. -/
theorem abs_of_every_value_longest :
    ∃ outcome, ({ program := program .abs } : Machine).Returns [-9223372036854775807, 5] outcome ∧
      (∃ output, outcome.result = .ok [output] ∧ output.toInt = 9223372036854775807) ∧
      outcome.trace.map Step.position = [1, 2, 3, 4, 5, 6, 7] ∧
      outcome.cost.uniform = 6 ∧ outcome.cost.logarithmic = 197 := by
  obtain ⟨outcome, hall, hwritten, -, hcharged, -⟩ :=
    abs_of_every_value (-9223372036854775807) [5]
  obtain ⟨htrace, huniform, hlogarithmic⟩ := hcharged (by decide) (by decide)
  exact ⟨outcome, (hall outcome).mpr rfl, hwritten (by decide), htrace, huniform, hlogarithmic⟩

end Sample

end RandomAccess
