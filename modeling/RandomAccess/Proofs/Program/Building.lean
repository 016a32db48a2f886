import Mathlib.Data.List.DropRight
import RandomAccess.Program.Builder
import RandomAccess.Program.Sample
import RandomAccess.Proofs.Execution.Stepping

/-!
# Histories of a builder

A jump is written with a position that the builder told earlier, when the program was not there yet.
After every history of calls, with any number of programs built on the way, a builder holds the
instructions appended since the last build and nothing else. So the position told before an
instruction is appended is the one at which it is found, fetched and listed in the program built
next, and a jump to that position goes on with it.
-/

namespace RandomAccess

namespace Program

variable {program : Program} {instruction : Instruction}

/-- An instruction stands one position after as many others as come before it. -/
theorem get?_of_append {before after : List Instruction}
    (h : program.instructions.toList = before ++ instruction :: after) :
    program.get? (before.length + 1) = some instruction := by
  rw [get?, if_neg (Nat.succ_ne_zero _), ← Array.getElem?_toList, h]
  simp

/-- What stands at a position is the entry of that number. -/
theorem getElem?_entries_of_get? {position : Nat} (h : program.get? position = some instruction) :
    program.entries[position - 1]? = some (position, instruction) := by
  rw [getElem?_entries, Nat.sub_add_cancel (le_size_of_get? h).1, h]
  rfl

/-- The entries go through all positions in order. -/
theorem map_entries (program : Program) :
    program.entries.map (fun entry => (entry.1, some entry.2)) =
      (List.range' 1 program.size).map fun position => (position, program.get? position) := by
  apply List.ext_getElem?
  intro index
  rw [List.getElem?_map, List.getElem?_map, getElem?_entries]
  cases hget : program.get? (index + 1) with
  | some instruction =>
    have hindex : index < program.size := (le_size_of_get? hget).2
    rw [List.getElem?_range' hindex]
    simp [hget, Nat.add_comm 1 index]
  | none =>
    have hindex : program.size ≤ index := by
      have hout := get?_eq_none_iff.mp hget
      omega
    rw [List.getElem?_eq_none (by simpa using hindex)]
    rfl

end Program

namespace Builder

/-- A call on a builder. -/
inductive Call where
  /-- Appends an instruction through the operation that bears its mnemonic. -/
  | append (instruction : Instruction)
  /-- Appends an instruction given as a whole. -/
  | push (instruction : Instruction)
  /-- Builds a program. -/
  | build
  deriving DecidableEq, Repr, Inhabited

namespace Call

/-- The builder after a call. -/
def apply (builder : Builder) : Call → Builder
  | append instruction => builder.append instruction
  | push instruction => builder.push instruction
  | build => builder.build.2

/-- The instruction that a call appends. -/
def appended? : Call → Option Instruction
  | append instruction | push instruction => some instruction
  | build => none

/-- Every call but a build appends an instruction. -/
theorem appended?_eq_none_iff {call : Call} : call.appended? = none ↔ call = build := by
  cases call <;> simp [appended?]

/-- A call that appends an instruction puts it last. -/
theorem apply_of_appended? {call : Call} {instruction : Instruction}
    (h : call.appended? = some instruction) (builder : Builder) :
    call.apply builder = builder.push instruction := by
  cases call with
  | append other =>
    obtain rfl := Option.some.inj h
    exact append_eq_push builder other
  | push other =>
    obtain rfl := Option.some.inj h
    rfl
  | build => cases h

end Call

/-- The builder after a history of calls on a new one. -/
def history (calls : List Call) : Builder :=
  calls.foldl Call.apply empty

/-- The calls of a history that come after its last build, or all of them if there is none. -/
def sinceBuild (calls : List Call) : List Call :=
  calls.rtakeWhile (· != .build)

/-- Calls without a build add what they append to what the builder holds. -/
theorem toList_pending_foldl {calls : List Call} (h : .build ∉ calls) (builder : Builder) :
    (calls.foldl Call.apply builder).pending.toList =
      builder.pending.toList ++ calls.filterMap Call.appended? := by
  induction calls generalizing builder with
  | nil => simp
  | cons call calls ih =>
    have hcall : call.appended? ≠ none := fun hnone =>
      List.ne_of_not_mem_cons h (Call.appended?_eq_none_iff.mp hnone).symm
    obtain ⟨instruction, happended⟩ := Option.ne_none_iff_exists'.mp hcall
    rw [List.foldl_cons, ih (List.not_mem_of_not_mem_cons h), Call.apply_of_appended? happended,
      toList_pending_push, List.filterMap_cons_some happended, List.append_assoc,
      List.singleton_append]

/-- No build comes after the last one. -/
theorem build_notMem_sinceBuild (calls : List Call) : .build ∉ sinceBuild calls :=
  fun h => absurd (List.mem_rtakeWhile_imp h) (by decide)

/-- Up to its last build a history leaves the builder as new. -/
theorem history_rdropWhile (calls : List Call) :
    history (calls.rdropWhile (· != .build)) = empty := by
  obtain hnil | ⟨before, call, hconcat⟩ :=
    List.eq_nil_or_concat' (calls.rdropWhile (· != .build))
  · rw [hnil]
    rfl
  · have hlast := List.rdropWhile_last_not (· != Call.build) calls (by simp [hconcat])
    have hcall : call = .build := by simpa [hconcat] using hlast
    rw [hconcat, hcall, history, List.foldl_concat]
    rfl

/-- A builder holds what was appended since the last build, in order. -/
theorem toList_pending_history (calls : List Call) :
    (history calls).pending.toList = (sinceBuild calls).filterMap Call.appended? := by
  -- the calls up to the last build leave nothing, and none of those after it is a build
  have hsplit : history calls =
      (sinceBuild calls).foldl Call.apply (history (calls.rdropWhile (· != .build))) := by
    rw [history, history, ← List.foldl_append, sinceBuild, List.rdropWhile_append_rtakeWhile]
  rw [hsplit, toList_pending_foldl (build_notMem_sinceBuild calls), history_rdropWhile]
  rfl

section

variable {before later : List Call} {call : Call} {instruction : Instruction}

/-- What is appended to a builder stands at the next position in the program built next. -/
theorem get?_build_history (hcall : call.appended? = some instruction) (hlater : .build ∉ later) :
    (history (before ++ call :: later)).build.1.get? (history before).nextPosition =
      some instruction := by
  have hbuilt : (history (before ++ call :: later)).build.1.instructions.toList =
      (history before).pending.toList ++ instruction :: later.filterMap Call.appended? := by
    rw [build, history, List.foldl_append, List.foldl_cons, toList_pending_foldl hlater,
      Call.apply_of_appended? hcall, toList_pending_push, List.append_assoc,
      List.singleton_append]
    rfl
  exact Program.get?_of_append hbuilt

/-- A jump to a position that the builder told goes on with the instruction appended there, if the
position is a machine word. -/
theorem fetch_after_jump (hcall : call.appended? = some instruction) (hlater : .build ∉ later)
    (hword : (history before).nextPosition < UInt64.size) {state : State}
    (hrun : state.status = .running)
    (hjump : (history (before ++ call :: later)).build.1.get? state.counter =
      some (.jump (history before).nextPosition.toUInt64)) :
    let program := (history (before ++ call :: later)).build.1
    let after := (state.step program).2
    after.status = .running ∧ program.fetch after.counter = .ok instruction := by
  intro program after
  have hstep : after = state.perform (.goto (history before).nextPosition.toUInt64.toNat) :=
    congrArg Prod.snd (State.step_of_yields hrun hjump .jump)
  have hcounter : after.counter = (history before).nextPosition := by
    rw [hstep]
    exact UInt64.toNat_ofNat_of_lt' hword
  refine ⟨by rw [hstep]; exact hrun, ?_⟩
  rw [hcounter]
  exact Program.fetch_of_get? (get?_build_history hcall hlater)

end

/-- After every history of calls a build returns the instructions appended since the last one, each
at the position that was the next one when it was appended. -/
theorem positions_of_history :
    (∀ calls : List Call,
      (history calls).build.1 = .ofList ((sinceBuild calls).filterMap Call.appended?) ∧
        (history (calls ++ [.build])).nextPosition = 1) ∧
    (∀ (before later : List Call) (call : Call) (instruction : Instruction),
      call.appended? = some instruction → .build ∉ later →
        let position := (history before).nextPosition
        let program := (history (before ++ call :: later)).build.1
        program.get? position = some instruction ∧
          program.fetch position = .ok instruction ∧
          program.entries[position - 1]? = some (position, instruction)) ∧
    ∀ program : Program,
      (∀ position,
        ((program.get? position).isSome = true ↔ 1 ≤ position ∧ position ≤ program.size) ∧
        (∀ instruction, program.get? position = some instruction →
          program.fetch position = .ok instruction) ∧
        (¬ (1 ≤ position ∧ position ≤ program.size) →
          program.fetch position = .error (.invalidProgramCounter position program.size))) ∧
      program.entries.map (fun entry => (entry.1, some entry.2)) =
        (List.range' 1 program.size).map fun position => (position, program.get? position) := by
  refine ⟨fun calls => ⟨?_, ?_⟩, ?_, fun program => ⟨fun position => ?_, program.map_entries⟩⟩
  · rw [← toList_pending_history]
    rfl
  · rw [history, List.foldl_concat]
    rfl
  · intro before later call instruction hcall hlater position program
    have hget : program.get? position = some instruction := get?_build_history hcall hlater
    exact ⟨hget, Program.fetch_of_get? hget, Program.getElem?_entries_of_get? hget⟩
  · refine ⟨Program.isSome_get?_iff, fun instruction => Program.fetch_of_get?, fun hout => ?_⟩
    rw [← Program.isSome_get?_iff, Option.not_isSome_iff_eq_none] at hout
    exact Program.fetch_of_get?_eq_none hout

/-- The sum is built by a builder that has built a program before. Its loop goes back to the
position told before the first instruction, and the jump stands where it was appended. -/
theorem positions_of_history_sum :
    let used : List Call := [.push .halt, .build]
    let top := (history used).nextPosition.toUInt64
    let before : List Call := used ++ [.append (.read (.literal 1)), .append (.load (.direct 1)),
      .append (.branch .zero 7), .append (.arith .add (.direct 2)), .append (.store (.literal 2))]
    let later : List Call := [.append (.write (.direct 2)), .push .halt]
    let program := (history (before ++ .append (.jump top) :: later)).build.1
    (Call.append (.jump top)).appended? = some (.jump top) ∧ .build ∉ later ∧
      program = Sample.sum.program ∧ top = 1 ∧ (history before).nextPosition = 6 ∧
      program.get? 6 = some (.jump 1) ∧ program.fetch 6 = .ok (.jump 1) ∧
      program.entries[5]? = some (6, .jump 1) := by
  intro used top before later program
  have hlater : .build ∉ later := by decide
  have hfound := positions_of_history.2.1 before later (.append (.jump top)) (.jump top) rfl hlater
  exact ⟨rfl, hlater, rfl, rfl, rfl, hfound⟩

end Builder

end RandomAccess
