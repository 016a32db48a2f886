import Mathlib.Algebra.BigOperators.Group.List.Basic
import Mathlib.Algebra.Ring.Int.Defs
import Mathlib.Data.List.TakeWhile
import Mathlib.Data.Nat.Find
import RandomAccess.Program.Sample
import RandomAccess.Proofs.Execution.Derivation

/-!
# The sum

The second sample adds up the values before the first 0. Each turn of its loop takes six steps and
leaves the sum of the values read so far in register 2. There are three ways out of the loop: the 0
itself, the end of the tape, and a sum that is no value, which is met in the turn that would come to
it and not at the end.
-/

namespace RandomAccess

namespace Sample

namespace Summation

open Ram

/-- The machine at the top of the loop. Registers 0 and 1 hold what the last turn has left. -/
def top (registers : Nat → Int) (input : List Int) (consumed : Nat) : Ram where
  registers := registers
  counter := 1
  input := input
  consumed := consumed
  output := []
  halted := false

/-- The machine after the next value was read into register 1 and loaded into register 0. -/
def loaded (registers : Nat → Int) (value : Int) (rest : List Int) (consumed : Nat) : Ram where
  registers index := if index = 0 then value else if index = 1 then value else registers index
  counter := 3
  input := rest
  consumed := consumed + 1
  output := []
  halted := false

variable {limit : Nat} {value : Int} {values rest : List Int}

/-- A turn begins with the next value. -/
theorem derives_loaded (hl : 2 < limit) (registers : Nat → Int) (value : Int) (rest : List Int)
    (consumed : Nat) :
    ∃ entries, Derives (program .sum) limit (top registers (value :: rest) consumed) entries
      (loaded registers value rest consumed) ∧ entries.length = 2 := by
  let taken : Ram :=
    { loaded registers value rest consumed with
      registers := fun index => if index = 1 then value else registers index
      counter := 2 }
  have hread : Steps (program .sum) limit (top registers (value :: rest) consumed)
      (.read (.literal 1)) taken :=
    ⟨rfl, .read rfl (Nat.lt_of_succ_lt hl)⟩
  have hload : Steps (program .sum) limit taken (.load (.direct 1))
      (loaded registers value rest consumed) :=
    ⟨rfl, .load rfl⟩
  exact ⟨_, .cons rfl hread (.cons rfl hload .nil), rfl⟩

/-- Any value but 0 is about to be added to the sum. -/
theorem derives_checked (hl : 2 < limit) (hvalue : value ≠ 0) (registers : Nat → Int)
    (rest : List Int) (consumed : Nat) :
    ∃ entries, Derives (program .sum) limit (top registers (value :: rest) consumed) entries
      { loaded registers value rest consumed with counter := 4 } ∧ entries.length = 3 := by
  obtain ⟨entries, hloaded, hlength⟩ := derives_loaded hl registers value rest consumed
  have hpass : Steps (program .sum) limit (loaded registers value rest consumed)
      (.branch .zero 7) { loaded registers value rest consumed with counter := 4 } :=
    ⟨rfl, .untaken hvalue⟩
  exact ⟨_, hloaded.append (.cons rfl hpass .nil), by simp [hlength]⟩

/-- A turn adds its value to the sum. -/
theorem derives_turn (hl : 2 < limit) (hvalue : value ≠ 0) (registers : Nat → Int)
    (hrep : Representable (value + registers 2)) (rest : List Int) (consumed : Nat) :
    ∃ entries after, Derives (program .sum) limit (top registers (value :: rest) consumed) entries
        (top after rest (consumed + 1)) ∧
      entries.length = 6 ∧ after 2 = value + registers 2 := by
  obtain ⟨entries, hchecked, hlength⟩ := derives_checked hl hvalue registers rest consumed
  let checked : Ram := { loaded registers value rest consumed with counter := 4 }
  let added : Ram := (checked.put 0 (value + registers 2)).proceed
  let stored : Ram := (added.put 2 (value + registers 2)).proceed
  have hadd : Steps (program .sum) limit checked (.arith .add (.direct 2)) added :=
    ⟨rfl, .arith rfl rfl hrep⟩
  have hstore : Steps (program .sum) limit added (.store (.literal 2)) stored :=
    ⟨rfl, .store hl⟩
  have hjump : Steps (program .sum) limit stored (.jump 1) { stored with counter := 1 } :=
    ⟨rfl, .jump⟩
  have hlast := Derives.cons rfl hadd (.cons rfl hstore (.cons rfl hjump .nil))
  exact ⟨_, stored.registers, hchecked.append hlast, by simp [hlength], rfl⟩

/-- As long as no sum is too large, the loop takes one turn for each value. -/
theorem derives_turns (hl : 2 < limit) (hvalues : ∀ value ∈ values, value ≠ 0)
    (registers : Nat → Int)
    (hrep : ∀ count ≤ values.length, Representable (registers 2 + (values.take count).sum))
    (rest : List Int) (consumed : Nat) :
    ∃ entries after, Derives (program .sum) limit (top registers (values ++ rest) consumed) entries
        (top after rest (consumed + values.length)) ∧
      entries.length = 6 * values.length ∧ after 2 = registers 2 + values.sum := by
  induction values generalizing registers consumed with
  | nil => exact ⟨[], registers, .nil, rfl, (Int.add_zero _).symm⟩
  | cons value values ih =>
    obtain ⟨hvalue, hrest⟩ := List.forall_mem_cons.mp hvalues
    have hsum : Representable (value + registers 2) := by
      have hone := hrep 1 (Nat.succ_le_succ (Nat.zero_le _))
      simpa [Int.add_comm] using hone
    obtain ⟨entries, turned, hturn, hlength, htotal⟩ :=
      derives_turn hl hvalue registers hsum (values ++ rest) consumed
    have hlater : ∀ count ≤ values.length,
        Representable (turned 2 + (values.take count).sum) := by
      intro count hcount
      have hnext := hrep (count + 1) (Nat.succ_le_succ hcount)
      rwa [List.take_succ_cons, List.sum_cons, ← Int.add_assoc, Int.add_comm (registers 2),
        ← htotal] at hnext
    obtain ⟨more, after, hturns, hmore, hafter⟩ := ih hrest turned hlater (consumed + 1)
    refine ⟨entries ++ more, after, ?_, ?_, ?_⟩
    · rw [List.length_cons, Nat.add_comm values.length, ← Nat.add_assoc]
      exact hturn.append hturns
    · rw [List.length_append, hlength, hmore, List.length_cons]
      omega
    · rw [hafter, htotal, List.sum_cons]
      omega

/-- From the start the loop takes one turn for each value. -/
theorem derives_start (hl : 2 < limit) (hvalues : ∀ value ∈ values, value ≠ 0)
    (hrep : ∀ count ≤ values.length, Representable (values.take count).sum) (rest : List Int) :
    ∃ entries after, Derives (program .sum) limit (.start (values ++ rest)) entries
        (top after rest values.length) ∧
      entries.length = 6 * values.length ∧ after 2 = values.sum := by
  obtain ⟨entries, after, hturns, hlength, htotal⟩ :=
    derives_turns hl hvalues (fun _ => 0) (by simpa using hrep) rest 0
  rw [Nat.zero_add] at hturns
  exact ⟨entries, after, hturns, hlength, htotal.trans (Int.zero_add _)⟩

/-- A 0 ends the loop, and the sum is written. -/
theorem halts_at_zero (hl : 2 < limit) (hvalues : ∀ value ∈ values, value ≠ 0)
    (hrep : ∀ count ≤ values.length, Representable (values.take count).sum) (rest : List Int) :
    ∃ entries, Halts (program .sum) limit (values ++ 0 :: rest) [values.sum] entries ∧
      entries.length = 6 * values.length + 5 := by
  obtain ⟨entries, after, hturns, hlength, htotal⟩ := derives_start hl hvalues hrep (0 :: rest)
  obtain ⟨more, hloaded, hmore⟩ := derives_loaded hl after 0 rest values.length
  let left : Ram := { loaded after 0 rest values.length with counter := 7 }
  let written : Ram := { left with counter := 8, output := [after 2] }
  have hleave : Steps (program .sum) limit (loaded after 0 rest values.length)
      (.branch .zero 7) left :=
    ⟨rfl, .taken rfl⟩
  have hwrite : Steps (program .sum) limit left (.write (.direct 2)) written := ⟨rfl, .write rfl⟩
  have hhalt : Steps (program .sum) limit written .halt { written with halted := true } :=
    ⟨rfl, .halt⟩
  have hlast := Derives.cons rfl hleave (.cons rfl hwrite (.cons rfl hhalt .nil))
  refine ⟨_, ⟨_, hturns.append (hloaded.append hlast), rfl, congrArg ([·]) htotal⟩, ?_⟩
  simp [hlength, hmore]

/-- Without a 0 the tape comes to its end at the top of the loop. -/
theorem stops_at_end (hl : 2 < limit) (hvalues : ∀ value ∈ values, value ≠ 0)
    (hrep : ∀ count ≤ values.length, Representable (values.take count).sum) :
    ∃ entries, Stops (program .sum) limit values (.inputExhausted values.length) 1 entries ∧
      entries.length = 6 * values.length := by
  obtain ⟨entries, after, hturns, hlength, -⟩ := derives_start hl hvalues hrep []
  rw [List.append_nil] at hturns
  have hrefuses : Refuses limit (top after [] values.length) (.read (.literal 1))
      (.inputExhausted values.length) :=
    .inputExhausted rfl
  exact ⟨entries, ⟨_, hturns, rfl, rfl, .refused rfl hrefuses⟩, hlength⟩

/-- The first sum that is too large is refused in the turn of its last value. -/
theorem stops_at_overflow (hl : 2 < limit) (hvalues : ∀ value ∈ values, value ≠ 0) {last : Nat}
    (hlast : last < values.length)
    (hrep : ∀ count ≤ last, Representable (values.take count).sum)
    (hover : ¬ Representable (values.take (last + 1)).sum) (rest : List Int) :
    ∃ entries, Stops (program .sum) limit (values ++ rest) (.arithmeticOverflow "ADD") 4 entries ∧
      entries.length = 6 * last + 3 := by
  have hsplit : values ++ rest =
      values.take last ++ values[last] :: (values.drop (last + 1) ++ rest) := by
    rw [← List.cons_append, ← List.drop_eq_getElem_cons hlast, ← List.append_assoc,
      List.take_append_drop]
  have hlength : (values.take last).length = last := List.length_take_of_le (Nat.le_of_lt hlast)
  have hbefore : ∀ count ≤ (values.take last).length,
      Representable ((values.take last).take count).sum := by
    intro count hcount
    rw [hlength] at hcount
    rw [List.take_take, Nat.min_eq_left hcount]
    exact hrep count hcount
  obtain ⟨entries, after, hturns, hentries, htotal⟩ :=
    derives_start hl (fun value hvalue => hvalues value (List.mem_of_mem_take hvalue)) hbefore
      (values[last] :: (values.drop (last + 1) ++ rest))
  obtain ⟨more, hchecked, hmore⟩ :=
    derives_checked hl (hvalues _ (List.getElem_mem hlast)) after (values.drop (last + 1) ++ rest)
      (values.take last).length
  rw [List.sum_take_succ _ _ hlast, ← htotal, Int.add_comm] at hover
  have hrefuses : Refuses limit
      { loaded after values[last] (values.drop (last + 1) ++ rest) (values.take last).length with
        counter := 4 }
      (.arith .add (.direct 2)) (.arithmeticOverflow "ADD") :=
    .arithmeticOverflow rfl rfl hover
  rw [hsplit]
  refine ⟨_, ⟨_, hturns.append hchecked, rfl, rfl, .refused rfl hrefuses⟩, ?_⟩
  rw [List.length_append, hentries, hmore, hlength]

/-- The numbers before the first 0 of an input. -/
def addends (input : List Int64) : List Int :=
  (input.takeWhile (· ≠ 0)).map Int64.toInt

/-- The exact sum of the first of these numbers. -/
def total (input : List Int64) (count : Nat) : Int :=
  ((addends input).take count).sum

variable {input : List Int64}

theorem addends_ne_zero (input : List Int64) : ∀ number ∈ addends input, number ≠ 0 := by
  intro number hnumber
  obtain ⟨value, hvalue, rfl⟩ := List.mem_map.mp hnumber
  have hne := List.mem_takeWhile_imp hvalue
  exact fun h => of_decide_eq_true hne (Int64.toInt_inj.mp h)

/-- The default settings leave room for the registers of the sample. -/
theorem lt_defaultLimit : 2 < RegisterFile.defaultLimit := by
  decide

/-- The tape begins with the numbers before the first 0. -/
theorem eq_addends_append (input : List Int64) :
    ∃ rest, input.map Int64.toInt = addends input ++ rest :=
  ⟨(input.dropWhile (· ≠ 0)).map Int64.toInt, by
    rw [addends, ← List.map_append, List.takeWhile_append_dropWhile]⟩

/-- The first 0 follows the numbers before it. -/
theorem eq_addends_append_zero (h : 0 ∈ input) :
    ∃ rest, input.map Int64.toInt = addends input ++ 0 :: rest := by
  obtain ⟨before, rest, hinput, hbefore⟩ := List.eq_append_cons_of_mem h
  have hfirst : input.takeWhile (· ≠ 0) = before := by
    rw [hinput, List.takeWhile_append_of_pos, List.takeWhile_cons_of_neg, List.append_nil]
    · simp
    · intro value hvalue
      exact decide_eq_true fun hzero => hbefore (hzero ▸ hvalue)
  refine ⟨rest.map Int64.toInt, ?_⟩
  rw [addends, hfirst, hinput, List.map_append]
  rfl

/-- Without a 0 all numbers are added. -/
theorem eq_addends (h : 0 ∉ input) : input.map Int64.toInt = addends input := by
  rw [addends, List.takeWhile_eq_self_iff.mpr]
  exact fun _ hvalue => decide_eq_true fun hzero => h (hzero ▸ hvalue)

/-- A first sum that is no value is met at the addition of its last value. -/
theorem ends_at_overflow {count : Nat} (hcount : count ≤ (addends input).length)
    (hover : ¬ Representable (total input count))
    (hrep : ∀ earlier < count, Representable (total input earlier)) :
    ∃ outcome, ({ program := program .sum } : Machine).Ends input outcome ∧
      outcome.result = .error (.arithmeticOverflow "ADD") ∧ outcome.position? = some 4 ∧
      outcome.trace.length = 6 * (count - 1) + 3 := by
  obtain ⟨rest, hinput⟩ := eq_addends_append input
  cases count with
  | zero =>
    -- the sum of no values is a value
    have hzero : Representable (total input 0) := by simp [Representable, total]
    exact absurd hzero hover
  | succ last =>
    obtain ⟨entries, hstops, hlength⟩ := stops_at_overflow lt_defaultLimit (addends_ne_zero input)
      hcount (fun count hle => hrep count (Nat.lt_succ_of_le hle)) hover rest
    rw [← hinput] at hstops
    obtain ⟨outcome, hends, hentries, hresult, hposition⟩ :=
      Machine.ends_of_stops { program := program .sum } input hstops (by decide) nofun
    exact ⟨outcome, hends, hresult, hposition, (Outcome.length_of_entries hentries).trans hlength⟩

/-- If all sums are values, the one at the first 0 is written. -/
theorem ends_at_zero (hrep : ∀ count ≤ (addends input).length, Representable (total input count))
    (hzero : 0 ∈ input) :
    ∃ outcome, ({ program := program .sum } : Machine).Ends input outcome ∧
      (∃ output, outcome.result = .ok [output] ∧
        output.toInt = total input (addends input).length) ∧
      outcome.trace.length = 6 * (addends input).length + 5 ∧
      outcome.cost.uniform = min (6 * (addends input).length + 4) Cost.ceiling := by
  obtain ⟨rest, hinput⟩ := eq_addends_append_zero hzero
  obtain ⟨entries, hhalts, hlength⟩ :=
    halts_at_zero lt_defaultLimit (addends_ne_zero input) hrep rest
  rw [← hinput] at hhalts
  obtain ⟨outcome, hends, hentries, huniform, values, hresult, hvalues⟩ :=
    Machine.ends_of_halts { program := program .sum } input hhalts (by decide) nofun
  obtain ⟨output, rfl, houtput⟩ := List.map_eq_singleton_iff.mp hvalues
  have htrace := (Outcome.length_of_entries hentries).trans hlength
  refine ⟨outcome, hends, ⟨output, hresult, ?_⟩, htrace, ?_⟩
  · rw [houtput, total, List.take_length]
  · rw [huniform, hlength]
    rfl

/-- If all sums are values, a tape without a 0 is read to its end. -/
theorem ends_at_end (hrep : ∀ count ≤ (addends input).length, Representable (total input count))
    (hzero : 0 ∉ input) :
    ∃ outcome, ({ program := program .sum } : Machine).Ends input outcome ∧
      outcome.result = .error (.inputExhausted (addends input).length) ∧
      outcome.position? = some 1 ∧ outcome.trace.length = 6 * (addends input).length := by
  obtain ⟨entries, hstops, hlength⟩ := stops_at_end lt_defaultLimit (addends_ne_zero input) hrep
  rw [← eq_addends hzero] at hstops
  obtain ⟨outcome, hends, hentries, hresult, hposition⟩ :=
    Machine.ends_of_stops { program := program .sum } input hstops (by decide) nofun
  rw [eq_addends hzero] at hresult
  exact ⟨outcome, hends, hresult, hposition, (Outcome.length_of_entries hentries).trans hlength⟩

/-- No more numbers are added than there are on the tape, and fewer if a 0 follows them. -/
theorem length_addends_le (input : List Int64) : (addends input).length ≤ input.length := by
  obtain ⟨rest, hinput⟩ := eq_addends_append input
  have hlength := congrArg List.length hinput
  rw [List.length_map, List.length_append] at hlength
  omega

theorem length_addends_lt (h : 0 ∈ input) : (addends input).length < input.length := by
  obtain ⟨rest, hinput⟩ := eq_addends_append_zero h
  have hlength := congrArg List.length hinput
  rw [List.length_map, List.length_append, List.length_cons] at hlength
  omega

/-- Every tape is one of the three, and on none of them more steps are made than six for a value and
four more. -/
theorem exists_ends_within (input : List Int64) :
    ∃ outcome, ({ program := program .sum } : Machine).Ends input outcome ∧
      outcome.trace.length < 6 * input.length + 5 := by
  have hle := length_addends_le input
  by_cases hrep : ∀ count ≤ (addends input).length, Representable (total input count)
  · by_cases hzero : 0 ∈ input
    · obtain ⟨outcome, hends, -, hlength, -⟩ := ends_at_zero hrep hzero
      have hlt := length_addends_lt hzero
      exact ⟨outcome, hends, by omega⟩
    · obtain ⟨outcome, hends, -, -, hlength⟩ := ends_at_end hrep hzero
      exact ⟨outcome, hends, by omega⟩
  · classical
    have hfails : ∃ count,
        count ≤ (addends input).length ∧ ¬ Representable (total input count) := by
      simpa only [not_forall, exists_prop] using hrep
    obtain ⟨hcount, hover⟩ := Nat.find_spec hfails
    have hbefore : ∀ earlier < Nat.find hfails, Representable (total input earlier) := by
      intro earlier hlt
      have hnone := Nat.find_min hfails hlt
      exact not_not.mp fun hnot => hnone ⟨by omega, hnot⟩
    obtain ⟨outcome, hends, -, -, hlength⟩ := ends_at_overflow hcount hover hbefore
    exact ⟨outcome, hends, by omega⟩

theorem exists_ends (input : List Int64) :
    ∃ outcome, ({ program := program .sum } : Machine).Ends input outcome := by
  obtain ⟨outcome, hends, -⟩ := exists_ends_within input
  exact ⟨outcome, hends⟩

end Summation

open Summation

/-- The sample writes the sum of the values before the first 0. It fails at the addition that first
leaves the values, or at the end of a tape without a 0. -/
theorem sum_of_every_tape (input : List Int64) :
    let machine : Machine := { program := program .sum }
    let size := (addends input).length
    ∃ outcome, (∀ other, machine.Returns input other ↔ other = outcome) ∧
      (∀ count ≤ size, ¬ Ram.Representable (total input count) →
        (∀ earlier < count, Ram.Representable (total input earlier)) →
          outcome.result = .error (.arithmeticOverflow "ADD") ∧ outcome.position? = some 4 ∧
            outcome.trace.length = 6 * (count - 1) + 3) ∧
      ((∀ count ≤ size, Ram.Representable (total input count)) → 0 ∈ input →
        (∃ output, outcome.result = .ok [output] ∧ output.toInt = total input size) ∧
          outcome.trace.length = 6 * size + 5 ∧
          outcome.cost.uniform = min (6 * size + 4) Cost.ceiling) ∧
      ((∀ count ≤ size, Ram.Representable (total input count)) → 0 ∉ input →
        outcome.result = .error (.inputExhausted size) ∧ outcome.position? = some 1 ∧
          outcome.trace.length = 6 * size) := by
  intro machine size
  obtain ⟨outcome, hends⟩ := exists_ends input
  refine ⟨outcome, hends.returns_iff, fun count hcount hover hrep => ?_, fun hrep hzero => ?_,
    fun hrep hzero => ?_⟩
  · obtain ⟨found, hfound, hmet⟩ := ends_at_overflow hcount hover hrep
    obtain rfl := hends.unique hfound
    exact hmet
  · obtain ⟨found, hfound, hmet⟩ := ends_at_zero hrep hzero
    obtain rfl := hends.unique hfound
    exact hmet
  · obtain ⟨found, hfound, hmet⟩ := ends_at_end hrep hzero
    obtain rfl := hends.unique hfound
    exact hmet

/-- The first value and the 1 after it are too much, although the -5 would bring the sum back. -/
theorem sum_of_every_tape_overflow :
    let input := [9223372036854775807, 1, -5, 0]
    Ram.Representable (total input 3) ∧
      ∃ outcome, ({ program := program .sum } : Machine).Returns input outcome ∧
        outcome.result = .error (.arithmeticOverflow "ADD") ∧ outcome.position? = some 4 ∧
        outcome.trace.length = 9 := by
  intro input
  obtain ⟨outcome, hall, hover, -⟩ := sum_of_every_tape input
  have hbefore : ∀ earlier < 2, Ram.Representable (total input earlier) := by
    unfold Ram.Representable
    decide
  refine ⟨by unfold Ram.Representable; decide, outcome, (hall outcome).mpr rfl, ?_⟩
  exact hover 2 (by decide) (by unfold Ram.Representable; decide) hbefore

end Sample

end RandomAccess
