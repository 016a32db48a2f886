import RandomAccess.Program.Sample
import RandomAccess.Proofs.Execution.Derivation

/-!
# The selection

The third sample reads three values and a number, and reads a register through the index after that
number. This is one of the three for the numbers 1, 2 and 3. The index for -1 is that of the
accumulator and the one for 0 is where the index itself is kept; past these five registers all hold
0, and before them there is none.
-/

namespace RandomAccess

namespace Sample

namespace Selection

open Ram

/-- The registers that are read into, in the order of the reads. -/
def places : List Nat := [2, 3, 4, 1]

/-- The machine after the reads of some values, with the rest of the tape before it. -/
def filled (values rest : List Int) : Ram where
  registers :=
    (places.zip values).foldl
      (fun registers entry index => if index = entry.1 then entry.2 else registers index)
      fun _ => 0
  counter := values.length + 1
  input := rest
  consumed := values.length
  output := []
  halted := false

variable {limit : Nat} {values : List Int} {first second third number : Int}

/-- The first four instructions are reads. -/
theorem get?_read {count : Nat} (h : count < 4) :
    ∃ target, (program .select).get? (count + 1) = some (.read target) := by
  match count with
  | 0 | 1 | 2 | 3 => exact ⟨_, rfl⟩

/-- The next of these reads fills the next place. -/
theorem steps_read (hl : 4 < limit) (h : values.length < 4) (value : Int) (rest : List Int) :
    ∃ target, Steps (program .select) limit (filled values (value :: rest)) (.read target)
        (filled (values ++ [value]) rest) ∧
      (filled (values ++ [value]) rest).registers target.address = value := by
  have hbound {place : Nat} (hplace : place ≤ 4) : place < limit := Nat.lt_of_le_of_lt hplace hl
  match values with
  | [] => exact ⟨.literal 2, ⟨rfl, .read rfl (hbound (by decide))⟩, rfl⟩
  | [_] => exact ⟨.literal 3, ⟨rfl, .read rfl (hbound (by decide))⟩, rfl⟩
  | [_, _] => exact ⟨.literal 4, ⟨rfl, .read rfl (hbound (by decide))⟩, rfl⟩
  | [_, _, _] => exact ⟨.literal 1, ⟨rfl, .read rfl (hbound (by decide))⟩, rfl⟩
  | _ :: _ :: _ :: _ :: _ => simp at h; omega

/-- Up to four values are read one after another. -/
theorem derives_filled (hl : 4 < limit) (values more : List Int)
    (h : (values ++ more).length ≤ 4) (rest : List Int) :
    ∃ entries, Derives (program .select) limit (filled values (more ++ rest)) entries
        (filled (values ++ more) rest) ∧
      entries.filterMap Entry.received? = more ∧ entries.length = more.length := by
  induction more generalizing values with
  | nil => exact ⟨[], by rw [List.append_nil]; exact .nil, rfl, rfl⟩
  | cons value more ih =>
    have hone : values.length < 4 := by
      simp only [List.length_append, List.length_cons] at h
      omega
    obtain ⟨target, hread, hvalue⟩ := steps_read hl hone value (more ++ rest)
    rw [List.append_cons] at h ⊢
    obtain ⟨entries, hderives, hreceived, hlength⟩ := ih (values ++ [value]) h
    refine ⟨_, .cons rfl hread hderives, ?_, congrArg (· + 1) hlength⟩
    rw [List.filterMap_cons, hreceived]
    exact congrArg (· :: more) hvalue

/-- A tape of fewer values is exhausted at the read after the last of them. -/
theorem stops_at_end (hl : 4 < limit) (h : values.length < 4) :
    ∃ entries, Stops (program .select) limit values (.inputExhausted values.length)
      (values.length + 1) entries ∧ entries.length = values.length := by
  obtain ⟨entries, hderives, -, hlength⟩ :=
    derives_filled hl [] values (Nat.le_of_lt h) []
  rw [List.append_nil, List.nil_append] at hderives
  obtain ⟨target, hget⟩ := get?_read h
  have hrefuses : Refuses limit (filled values []) (.read target) (.inputExhausted values.length) :=
    .inputExhausted rfl
  exact ⟨entries, ⟨_, hderives, rfl, rfl, .refused hget hrefuses⟩, hlength⟩

/-- Steps that read nothing add to the length of a derivation only. -/
theorem told_append {entries more : List Entry} {numbers : List Int} {length : Nat}
    (h : entries.filterMap Entry.received? = numbers ∧ entries.length = length)
    (hmore : more.filterMap Entry.received? = []) :
    (entries ++ more).filterMap Entry.received? = numbers ∧
      (entries ++ more).length = length + more.length := by
  rw [List.filterMap_append, h.1, hmore, List.append_nil, List.length_append, h.2]
  exact ⟨rfl, rfl⟩

/-- The machine before the number, which was loaded into register 0, is increased. -/
def loaded (first second third number : Int) (rest : List Int) : Ram :=
  ((filled [first, second, third, number] rest).put 0 number).proceed

/-- The machine after the index was put into register 1. -/
def indexed (first second third number : Int) (rest : List Int) : Ram :=
  (((loaded first second third number rest).put 0 (number + 1)).proceed.put 1 (number + 1)).proceed

/-- The number is loaded in the fifth step. -/
theorem derives_loaded (hl : 4 < limit) (first second third number : Int) (rest : List Int) :
    ∃ entries, Derives (program .select) limit (.start (first :: second :: third :: number :: rest))
        entries (loaded first second third number rest) ∧
      entries.filterMap Entry.received? = [first, second, third, number] ∧ entries.length = 5 := by
  obtain ⟨entries, hderives, htold⟩ :=
    derives_filled hl [] [first, second, third, number] (Nat.le_refl 4) rest
  have hload : Steps (program .select) limit (filled [first, second, third, number] rest)
      (.load (.direct 1)) (loaded first second third number rest) :=
    ⟨rfl, .load rfl⟩
  exact ⟨_, hderives.append (.cons rfl hload .nil), told_append htold rfl⟩

/-- There is no index after the largest number. -/
theorem stops_at_overflow (hl : 4 < limit) (hover : ¬ Representable (number + 1))
    (rest : List Int) :
    ∃ entries, Stops (program .select) limit (first :: second :: third :: number :: rest)
        (.arithmeticOverflow "ADD") 6 entries ∧
      entries.filterMap Entry.received? = [first, second, third, number] ∧ entries.length = 5 := by
  obtain ⟨entries, hderives, htold⟩ := derives_loaded hl first second third number rest
  have hrefuses : Refuses limit (loaded first second third number rest) (.arith .add (.literal 1))
      (.arithmeticOverflow "ADD") :=
    .arithmeticOverflow rfl rfl hover
  exact ⟨entries, ⟨_, hderives, rfl, rfl, .refused rfl hrefuses⟩, htold⟩

/-- For any other number the index is put into its register. -/
theorem derives_indexed (hl : 4 < limit) (hrep : Representable (number + 1)) (rest : List Int) :
    ∃ entries, Derives (program .select) limit (.start (first :: second :: third :: number :: rest))
        entries (indexed first second third number rest) ∧
      entries.filterMap Entry.received? = [first, second, third, number] ∧ entries.length = 7 := by
  obtain ⟨entries, hderives, htold⟩ := derives_loaded hl first second third number rest
  let increased : Ram := ((loaded first second third number rest).put 0 (number + 1)).proceed
  have hadd : Steps (program .select) limit (loaded first second third number rest)
      (.arith .add (.literal 1)) increased :=
    ⟨rfl, .arith rfl rfl hrep⟩
  have hstore : Steps (program .select) limit increased (.store (.literal 1))
      (indexed first second third number rest) :=
    ⟨rfl, .store (Nat.lt_of_le_of_lt (by decide) hl)⟩
  exact ⟨_, hderives.append (.cons rfl hadd (.cons rfl hstore .nil)), told_append htold rfl⟩

/-- A negative index is not followed. -/
theorem stops_at_negative (hl : 4 < limit) (hrep : Representable (number + 1))
    (hneg : number + 1 < 0) (rest : List Int) :
    ∃ entries, Stops (program .select) limit (first :: second :: third :: number :: rest)
        (.negativeAddress (Int64.ofInt (number + 1))) 8 entries ∧
      entries.filterMap Entry.received? = [first, second, third, number] ∧ entries.length = 7 := by
  obtain ⟨entries, hderives, htold⟩ := derives_indexed hl hrep rest
  have hsource : (Instruction.write (.indirect 1)).source? = some (.indirect 1) := rfl
  have hrefuses : Refuses limit (indexed first second third number rest) (.write (.indirect 1))
      (.negativeAddress (Int64.ofInt (number + 1))) :=
    .negativeAddress hsource hneg
  exact ⟨entries, ⟨_, hderives, rfl, rfl, .refused rfl hrefuses⟩, htold⟩

/-- Any other index is followed, and what its register holds is written. -/
theorem halts_at_index (hl : 4 < limit) (hrep : Representable (number + 1))
    (hindex : ¬ number + 1 < 0) (rest : List Int) :
    ∃ entries, Halts (program .select) limit (first :: second :: third :: number :: rest)
        [(indexed first second third number rest).registers (number + 1).toNat] entries ∧
      entries.filterMap Entry.received? = [first, second, third, number] ∧ entries.length = 9 := by
  obtain ⟨entries, hderives, htold⟩ := derives_indexed hl hrep rest
  let reached := (indexed first second third number rest).registers (number + 1).toNat
  let written : Ram :=
    { indexed first second third number rest with
      counter := 9
      output := [reached] }
  have hwrite : Steps (program .select) limit (indexed first second third number rest)
      (.write (.indirect 1)) written :=
    ⟨rfl, .write (if_neg hindex)⟩
  have hhalt : Steps (program .select) limit written .halt { written with halted := true } :=
    ⟨rfl, .halt⟩
  have hlast := Derives.cons rfl hwrite (.cons rfl hhalt .nil)
  exact ⟨_, ⟨_, hderives.append hlast, rfl, rfl⟩, told_append htold rfl⟩

/-- What the selection comes to: one of the three values, the index where it is that of its own
register, or 0. -/
def chosen (first second third number : Int64) : Int64 :=
  if number = 1 then first
  else if number = 2 then second
  else if number = 3 then third
  else if number = 0 then 1
  else 0

/-- The register of the index holds what is chosen. -/
theorem registers_indexed {first second third number : Int64} (hindex : ¬ number.toInt + 1 < 0)
    (rest : List Int) :
    (indexed first.toInt second.toInt third.toInt number.toInt rest).registers
      (number.toInt + 1).toNat = (chosen first second third number).toInt := by
  have hat (index : Nat) :
      (indexed first.toInt second.toInt third.toInt number.toInt rest).registers index =
        if index = 1 then number.toInt + 1
        else if index = 0 then number.toInt + 1
        else if index = 2 then first.toInt
        else if index = 3 then second.toInt
        else if index = 4 then third.toInt
        else 0 := by
    simp only [indexed, loaded, filled, places, put, proceed, List.zip_cons_cons, List.zip_nil_left,
      List.foldl_cons, List.foldl_nil]
    grind
  simp only [hat, chosen, ← Int64.toInt_inj, apply_ite Int64.toInt]
  simp only [Int64.reduceToInt]
  split_ifs <;> omega

variable {machine : Machine} {outcome : Outcome} {entries : List Entry}

/-- An outcome that has received just the first four values, and did not fail for the tape or a
register, is that of these values alone. -/
theorem returns_four {first second third number : Int64} {rest : List Int64}
    (hends : machine.Ends (first :: second :: third :: number :: rest) outcome)
    (hentries : outcome.trace.map Step.entry = entries)
    (htold : entries.filterMap Entry.received? =
      [first.toInt, second.toInt, third.toInt, number.toInt])
    (htape : ∀ consumed, outcome.result ≠ .error (.inputExhausted consumed))
    (hregister : ∀ index limit, outcome.result ≠ .error (.registerLimit index limit))
    (other : Outcome) :
    machine.Returns [first, second, third, number] other ↔ other = outcome := by
  have hnumbers := (Outcome.received_of_entries hentries).trans htold
  have hlength : outcome.received.length = 4 := by
    simpa using congrArg List.length hnumbers
  have hreceived : outcome.received ++ [] = [first, second, third, number] := by
    rw [List.append_nil, hends.received_eq_take, hlength]
    rfl
  have hahead : ¬ outcome.LooksAhead machine.program := by
    cases outcome with
    | success => exact id
    | failure fault position trace =>
      cases fault with
      | registerLimit index limit => exact absurd rfl (hregister index limit)
      | _ => exact id
  exact (hreceived ▸ hends.retape htape fun h => absurd h hahead).returns_iff other

/-- The default settings leave room for the registers of the sample. -/
theorem four_lt_defaultLimit : 4 < RegisterFile.defaultLimit := by
  decide

/-- Every number but the largest has a next one. -/
theorem representable_next_iff (number : Int64) :
    Representable (number.toInt + 1) ↔ number ≠ Int64.maxValue := by
  have hbounds := representable_iff.mpr ⟨number, rfl⟩
  have hmax := Int64.toInt_maxValue
  rw [ne_eq, ← Int64.toInt_inj]
  unfold Representable at hbounds ⊢
  omega

/-- The index is negative for the numbers below -1. -/
theorem index_neg_iff (number : Int64) : number.toInt + 1 < 0 ↔ number ≤ -2 := by
  rw [Int64.le_iff_toInt_le]
  change _ ↔ number.toInt ≤ -2
  omega

/-- The machine cannot increase the largest number. -/
theorem ends_at_overflow (first second third : Int64) (rest : List Int64) :
    ∃ outcome, ({ program := program .select } : Machine).Ends
        (first :: second :: third :: Int64.maxValue :: rest) outcome ∧
      (∀ other, ({ program := program .select } : Machine).Returns
        [first, second, third, Int64.maxValue] other ↔ other = outcome) ∧
      outcome.result = .error (.arithmeticOverflow "ADD") ∧ outcome.position? = some 6 := by
  have hover : ¬ Representable (Int64.maxValue.toInt + 1) := by
    rw [representable_next_iff]
    exact not_not.mpr rfl
  obtain ⟨entries, hstops, htold, -⟩ :=
    stops_at_overflow four_lt_defaultLimit hover (rest.map Int64.toInt)
  obtain ⟨outcome, hends, hentries, hresult, hposition⟩ :=
    Machine.ends_of_stops { program := program .select }
      (first :: second :: third :: Int64.maxValue :: rest) hstops (by decide) nofun
  have hfour := returns_four hends hentries htold (by simp [hresult]) (by simp [hresult])
  exact ⟨outcome, hends, hfour, hresult, hposition⟩

/-- The machine cannot follow a negative index. -/
theorem ends_at_negative {number : Int64} (hneg : number ≤ -2) (first second third : Int64)
    (rest : List Int64) :
    ∃ outcome, ({ program := program .select } : Machine).Ends
        (first :: second :: third :: number :: rest) outcome ∧
      (∀ other, ({ program := program .select } : Machine).Returns
        [first, second, third, number] other ↔ other = outcome) ∧
      outcome.result = .error (.negativeAddress (number + 1)) ∧
      outcome.position? = some 8 ∧ outcome.trace.length = 7 := by
  have hrep : Representable (number.toInt + 1) := by
    rw [representable_next_iff]
    rintro rfl
    exact absurd hneg (by decide)
  obtain ⟨entries, hstops, htold, hlength⟩ :=
    stops_at_negative four_lt_defaultLimit hrep ((index_neg_iff number).mpr hneg)
      (rest.map Int64.toInt)
  obtain ⟨outcome, hends, hentries, hresult, hposition⟩ :=
    Machine.ends_of_stops { program := program .select }
      (first :: second :: third :: number :: rest) hstops (by decide) nofun
  have hfour := returns_four hends hentries htold (by simp [hresult]) (by simp [hresult])
  have htrace := (Outcome.length_of_entries hentries).trans hlength
  refine ⟨outcome, hends, hfour, ?_, hposition, htrace⟩
  rw [hresult, Int64.ofInt_add, Int64.ofInt_toInt]
  rfl

/-- The machine writes what is chosen by any other number. -/
theorem ends_at_index {number : Int64} (hneg : ¬ number ≤ -2) (hmax : number ≠ Int64.maxValue)
    (first second third : Int64) (rest : List Int64) :
    ∃ outcome, ({ program := program .select } : Machine).Ends
        (first :: second :: third :: number :: rest) outcome ∧
      (∀ other, ({ program := program .select } : Machine).Returns
        [first, second, third, number] other ↔ other = outcome) ∧
      outcome.result = .ok [chosen first second third number] ∧
      outcome.trace.length = 9 ∧ outcome.cost.uniform = 8 := by
  have hrep := (representable_next_iff number).mpr hmax
  have hindex := mt (index_neg_iff number).mp hneg
  obtain ⟨entries, hhalts, htold, hlength⟩ :=
    halts_at_index four_lt_defaultLimit hrep hindex (rest.map Int64.toInt)
  rw [registers_indexed hindex] at hhalts
  obtain ⟨outcome, hends, hentries, huniform, values, hresult, hvalues⟩ :=
    Machine.ends_of_halts { program := program .select }
      (first :: second :: third :: number :: rest) hhalts (by decide) nofun
  obtain ⟨output, rfl, houtput⟩ := List.map_eq_singleton_iff.mp hvalues
  obtain rfl := Int64.toInt_inj.mp houtput
  have hfour := returns_four hends hentries htold (by simp [hresult]) (by simp [hresult])
  have htrace := (Outcome.length_of_entries hentries).trans hlength
  refine ⟨outcome, hends, hfour, hresult, htrace, ?_⟩
  rw [huniform, hlength]
  rfl

end Selection

open Selection

/-- The sample writes what its fourth value selects from the first three. It fails on a shorter tape
and where there is no index or a negative one, and looks at no value after the fourth. -/
theorem select_of_every_tape (input : List Int64) :
    let machine : Machine := { program := program .select }
    ∃ outcome, (∀ other, machine.Returns input other ↔ other = outcome) ∧
      (input.length < 4 →
        outcome.result = .error (.inputExhausted input.length) ∧
          outcome.position? = some (input.length + 1) ∧ outcome.trace.length = input.length) ∧
      ∀ first second third number rest, input = first :: second :: third :: number :: rest →
        (∀ other, machine.Returns [first, second, third, number] other ↔ other = outcome) ∧
          (number = Int64.maxValue →
            outcome.result = .error (.arithmeticOverflow "ADD") ∧ outcome.position? = some 6) ∧
          (number ≤ -2 →
            outcome.result = .error (.negativeAddress (number + 1)) ∧
              outcome.position? = some 8 ∧ outcome.trace.length = 7) ∧
          (-1 ≤ number → number ≠ Int64.maxValue →
            outcome.result = .ok [chosen first second third number] ∧
              outcome.trace.length = 9 ∧ outcome.cost.uniform = 8) := by
  intro machine
  by_cases hshort : input.length < 4
  · have hnumbers : (input.map Int64.toInt).length < 4 := by rwa [List.length_map]
    obtain ⟨entries, hstops, hlength⟩ := stops_at_end four_lt_defaultLimit hnumbers
    obtain ⟨outcome, hends, hentries, hresult, hposition⟩ :=
      machine.ends_of_stops input hstops (by decide) nofun
    rw [List.length_map] at hresult hposition hlength
    have htrace := (Outcome.length_of_entries hentries).trans hlength
    refine ⟨outcome, hends.returns_iff, fun _ => ⟨hresult, hposition, htrace⟩, ?_⟩
    rintro first second third number rest rfl
    exact absurd hshort (by simp)
  obtain ⟨first, second, third, number, rest, rfl⟩ :
      ∃ first second third number rest, input = first :: second :: third :: number :: rest := by
    match input with
    | first :: second :: third :: number :: rest => exact ⟨_, _, _, _, _, rfl⟩
    | [] | [_] | [_, _] | [_, _, _] => exact absurd (by simp) hshort
  by_cases hmax : number = Int64.maxValue
  · subst hmax
    obtain ⟨outcome, hends, hfour, hmet⟩ := ends_at_overflow first second third rest
    refine ⟨outcome, hends.returns_iff, fun h => absurd h hshort, ?_⟩
    rintro _ _ _ _ _ ⟨⟩
    exact ⟨hfour, fun _ => hmet, fun h => absurd h (by decide), fun _ h => absurd rfl h⟩
  by_cases hneg : number ≤ -2
  · obtain ⟨outcome, hends, hfour, hmet⟩ := ends_at_negative hneg first second third rest
    refine ⟨outcome, hends.returns_iff, fun h => absurd h hshort, ?_⟩
    rintro _ _ _ _ _ ⟨⟩
    exact ⟨hfour, fun h => absurd h hmax, fun _ => hmet,
      fun h => absurd (Int64.le_trans h hneg) (by decide)⟩
  · obtain ⟨outcome, hends, hfour, hmet⟩ := ends_at_index hneg hmax first second third rest
    refine ⟨outcome, hends.returns_iff, fun h => absurd h hshort, ?_⟩
    rintro _ _ _ _ _ ⟨⟩
    exact ⟨hfour, fun h => absurd h hmax, fun h => absurd h hneg, fun _ _ => hmet⟩

/-- For the number 0 the index is where the index itself is kept, and so 1 is written; a value after
the number is not read. -/
theorem select_of_every_tape_own_index :
    let machine : Machine := { program := program .select }
    ∃ outcome, machine.Returns [10, 20, 30, 0, 7] outcome ∧
      machine.Returns [10, 20, 30, 0] outcome ∧ outcome.result = .ok [1] ∧
      outcome.trace.length = 9 ∧ outcome.cost.uniform = 8 := by
  intro machine
  obtain ⟨outcome, hall, -, hfour⟩ := select_of_every_tape [10, 20, 30, 0, 7]
  obtain ⟨hshort, -, -, hchosen⟩ := hfour 10 20 30 0 [7] rfl
  exact ⟨outcome, (hall outcome).mpr rfl, (hshort outcome).mpr rfl,
    hchosen (by decide) (by decide)⟩

end Sample

end RandomAccess
