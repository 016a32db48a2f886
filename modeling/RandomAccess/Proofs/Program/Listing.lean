import RandomAccess.Program.Builder
import RandomAccess.Proofs.Execution.Stepping
import RandomAccess.Proofs.Text.Decimal

/-!
# Listings

A line of a listing ends at its newline, its mnemonic at the first blank, and a number at the first
character that is no digit. So two listings are the same only if they show the same mnemonics and
operands at the same positions. What is shown is not always what is meant: positions and literal
addresses above the largest value are all shown as that value. An instruction without such a number
is read back from its mnemonic and its operand.
-/

namespace RandomAccess

namespace Text

/-- Lines that end at their newlines are told from one another. -/
theorem lines_inj {lines others : List (List Char)} (hlines : ∀ line ∈ lines, '\n' ∉ line)
    (hothers : ∀ line ∈ others, '\n' ∉ line) :
    lines.flatMap (· ++ ['\n']) = others.flatMap (· ++ ['\n']) ↔ lines = others := by
  have hinside {line : List Char} (hnone : '\n' ∉ line) : ∀ c ∈ line, (c != '\n') = true :=
    fun c hc => bne_iff_ne.mpr fun heq => hnone (heq ▸ hc)
  refine ⟨fun h => ?_, fun h => by rw [h]⟩
  induction lines generalizing others with
  | nil =>
    cases others with
    | nil => rfl
    | cons other others => simp at h
  | cons line lines ih =>
    cases others with
    | nil => simp at h
    | cons other others =>
      obtain ⟨hline, hbelow⟩ := List.forall_mem_cons.mp hlines
      obtain ⟨hother, hotherBelow⟩ := List.forall_mem_cons.mp hothers
      simp only [List.flatMap_cons, List.append_assoc, List.singleton_append] at h
      obtain ⟨rfl, hrest⟩ :=
        append_inj_of_takeWhile (hinside hline) (hinside hother) rfl rfl h
      rw [ih hbelow hotherBelow (List.cons.inj hrest).2]

/-- A number is read up to the first character that is no digit. -/
theorem digits?_takeWhile_repr (index : Nat) (rest : List Char)
    (hrest : rest.takeWhile Char.isDigit = []) :
    digits? ((index.repr.toList ++ rest).takeWhile Char.isDigit) = some index := by
  rw [List.takeWhile_append_of_pos fun _ hc => isDigit_of_mem_repr hc, hrest, List.append_nil,
    digits?_repr]

theorem newline_notMem_toDigits (index : Nat) : '\n' ∉ Nat.toDigits 10 index :=
  fun h => absurd (Nat.isDigit_of_mem_toDigits (by decide) (by decide) h) (by decide)

theorem newline_notMem_decimal (value : Int64) : '\n' ∉ (decimal value).toList :=
  fun h => absurd (isDecimal_of_mem_decimal h) (by decide)

end Text

namespace Operand

/-- The operand that a text shows. -/
def ofText? : List Char → Option Operand
  | '=' :: cs => ((Text.integer? (String.ofList cs)).bind narrow?).map literal
  | 'R' :: '(' :: cs =>
      match Text.digits? (cs.takeWhile Char.isDigit), cs with
      | some address, _ => some (direct address.toUInt64)
      | none, 'R' :: '(' :: cs =>
          (Text.digits? (cs.takeWhile Char.isDigit)).map fun address => indirect address.toUInt64
      | none, _ => none
  | _ => none

/-- An operand is read back from its text. -/
theorem ofText?_text (operand : Operand) : ofText? operand.text.toList = some operand := by
  cases operand with
  | literal value =>
    have hchars : (literal value).text.toList = '=' :: (Text.decimal value).toList := by
      simp [text]
    have hvalue : narrow? value.toInt = some value := narrow?_eq_some_iff.mpr rfl
    simp only [hchars, ofText?, String.ofList_toList, Text.integer?_decimal, Option.bind_some,
      hvalue, Option.map_some]
  | direct address =>
    have hchars : (direct address).text.toList =
        'R' :: '(' :: (address.toNat.repr.toList ++ [')']) := by
      simp [text]
    have haddress := Text.digits?_takeWhile_repr address.toNat [')'] rfl
    simp only [hchars, ofText?, haddress]
    simp
  | indirect address =>
    have hchars : (indirect address).text.toList =
        'R' :: '(' :: 'R' :: '(' :: (address.toNat.repr.toList ++ [')', ')']) := by
      simp [text]
    have haddress := Text.digits?_takeWhile_repr address.toNat [')', ')'] rfl
    have hnone (cs : List Char) :
        Text.digits? (('R' :: cs).takeWhile Char.isDigit) = none := rfl
    simp only [hchars, ofText?, hnone, haddress]
    simp

/-- Operands with the same text are the same. -/
theorem text_inj {operand other : Operand} : operand.text = other.text ↔ operand = other := by
  refine ⟨fun h => ?_, congrArg text⟩
  have hread := ofText?_text operand
  rw [h, ofText?_text] at hread
  exact (Option.some.inj hread).symm

theorem newline_notMem_text (operand : Operand) : '\n' ∉ operand.text.toList := by
  cases operand with
  | literal value => simp [text, Text.newline_notMem_decimal]
  | direct address => simp [text, Text.newline_notMem_toDigits]
  | indirect address => simp [text, Text.newline_notMem_toDigits]

/-- The position that a literal shows. -/
def position? : Operand → Option UInt64
  | literal value => some value.toUInt64
  | direct _ | indirect _ => none

/-- A position up to the largest value is shown as it is. -/
theorem position?_position {position : UInt64}
    (h : position.toNat ≤ Int64.maxValue.toInt.toNat) :
    (Operand.position position).position? = some position := by
  rw [Operand.position, Nat.min_eq_left h, position?, Int64.toUInt64_ofNat', UInt64.ofNat_toNat]

/-- The target that an operand shows. -/
def target? : Operand → Option Target
  | direct address => some (.direct address)
  | literal value => (literal value).position?.map .literal
  | indirect _ => none

end Operand

namespace Instruction

variable {instruction other : Instruction}

/-- The position, or the address of a literal target, that an instruction shows as a literal. -/
def shownPosition? : Instruction → Option UInt64
  | store (.literal address) | read (.literal address) => some address
  | jump position | branch _ position => some position
  | load _ | store (.direct _) | arith _ _ | read (.direct _) | write _ | halt => none

/-- The instruction of a mnemonic and an operand. -/
def ofParts? : String → Option Operand → Option Instruction
  | "LOAD", some operand => some (load operand)
  | "STORE", some operand => operand.target?.map store
  | "ADD", some operand => some (arith .add operand)
  | "SUB", some operand => some (arith .sub operand)
  | "MULT", some operand => some (arith .mult operand)
  | "DIV", some operand => some (arith .div operand)
  | "JUMP", some operand => operand.position?.map jump
  | "JZERO", some operand => operand.position?.map (branch .zero)
  | "JGTZ", some operand => operand.position?.map (branch .positive)
  | "READ", some operand => operand.target?.map read
  | "WRITE", some operand => some (write operand)
  | "HALT", none => some halt
  | _, _ => none

/-- An instruction that shows no position above the largest value is read back from its parts. -/
theorem ofParts?_parts
    (h : ∀ position ∈ instruction.shownPosition?, position.toNat ≤ Int64.maxValue.toInt.toNat) :
    ofParts? instruction.mnemonic instruction.operand? = some instruction := by
  have htarget (target : Target)
      (hliteral : ∀ address, target = .literal address →
        address.toNat ≤ Int64.maxValue.toInt.toNat) :
      target.operand.target? = some target := by
    cases target with
    | direct address => rfl
    | literal address =>
      exact congrArg (Option.map Target.literal) (Operand.position?_position (hliteral address rfl))
  cases instruction with
  | load operand | write operand => rfl
  | halt => rfl
  | arith op operand => cases op <;> rfl
  | store target =>
    have hback := htarget target fun address heq => h address (by rw [heq]; rfl)
    exact congrArg (Option.map store) hback
  | read target =>
    have hback := htarget target fun address heq => h address (by rw [heq]; rfl)
    exact congrArg (Option.map read) hback
  | jump position =>
    exact congrArg (Option.map jump) (Operand.position?_position (h position rfl))
  | branch condition position =>
    have hback := Operand.position?_position (h position rfl)
    cases condition with
    | zero => exact congrArg (Option.map (branch .zero)) hback
    | positive => exact congrArg (Option.map (branch .positive)) hback

/-- A mnemonic is a word of capital letters. -/
theorem isUpper_of_mem_mnemonic {c : Char} (h : c ∈ instruction.mnemonic.toList) :
    c.isUpper = true := by
  have hall : instruction.mnemonic.toList.all Char.isUpper = true := by
    cases instruction with
    | arith op operand => cases op <;> simp [mnemonic]
    | branch condition position => cases condition <;> simp [mnemonic]
    | load | store | jump | read | write | halt => simp [mnemonic]
  exact List.all_eq_true.mp hall c h

/-- What follows a mnemonic in the text of an instruction. -/
def operandText : Option Operand → List Char
  | some operand => ' ' :: operand.text.toList
  | none => []

theorem toList_text (instruction : Instruction) :
    instruction.text.toList =
      instruction.mnemonic.toList ++ operandText instruction.operand? := by
  unfold text
  cases instruction.operand? with
  | some operand => simp [operandText]
  | none => simp [operandText]

theorem operandText_inj {first second : Option Operand} :
    operandText first = operandText second ↔ first = second := by
  refine ⟨fun h => ?_, congrArg operandText⟩
  cases first with
  | none =>
    cases second with
    | none => rfl
    | some operand => cases h
  | some operand =>
    cases second with
    | none => cases h
    | some other =>
      rw [Operand.text_inj.mp (String.toList_inj.mp (List.cons.inj h).2)]

/-- A text shows the mnemonic and the operand of its instruction, and nothing else of it. -/
theorem text_eq_iff :
    instruction.text = other.text ↔
      instruction.mnemonic = other.mnemonic ∧ instruction.operand? = other.operand? := by
  constructor
  · intro h
    have hblank (operand? : Option Operand) :
        (operandText operand?).takeWhile Char.isUpper = [] := by
      cases operand? <;> rfl
    have hchars := congrArg String.toList h
    rw [toList_text, toList_text] at hchars
    obtain ⟨hmnemonic, hoperand⟩ := Text.append_inj_of_takeWhile
      (fun _ => isUpper_of_mem_mnemonic) (fun _ => isUpper_of_mem_mnemonic) (hblank _) (hblank _)
      hchars
    exact ⟨String.toList_inj.mp hmnemonic, operandText_inj.mp hoperand⟩
  · rintro ⟨hmnemonic, hoperand⟩
    rw [← String.toList_inj, toList_text, toList_text, hmnemonic, hoperand]

theorem newline_notMem_text (instruction : Instruction) : '\n' ∉ instruction.text.toList := by
  rw [toList_text, List.mem_append]
  rintro (h | h)
  · exact absurd (isUpper_of_mem_mnemonic h) (by decide)
  · cases hoperand : instruction.operand? with
    | none =>
      rw [hoperand] at h
      cases h
    | some operand =>
      rw [hoperand, operandText, List.mem_cons] at h
      exact operand.newline_notMem_text (h.resolve_left (by decide))

end Instruction

namespace Program

variable {program other : Program}

/-- Every position and every literal address of the program is shown as it is: none of them is above
the largest value. -/
def Legible (program : Program) : Prop :=
  ∀ instruction ∈ program.instructions, ∀ position ∈ instruction.shownPosition?,
    position.toNat ≤ Int64.maxValue.toInt.toNat

instance : DecidablePred Legible := fun program =>
  decidable_of_iff
    (∀ instruction ∈ program.instructions, instruction.shownPosition?.all fun position =>
      position.toNat ≤ Int64.maxValue.toInt.toNat)
    (by simp [Legible, Option.all_eq_true])

/-- The characters of a line before its newline. -/
def lineText (position : Nat) (text : String) : List Char :=
  (Text.alignRight 4 position.repr).toList ++ ':' :: ' ' :: text.toList

/-- Lines for the same position differ in the text that stands there. -/
theorem lineText_inj {position : Nat} {text more : String}
    (h : lineText position text = lineText position more) : text = more := by
  have htexts := List.append_cancel_left h
  exact String.toList_inj.mp (List.cons.inj (List.cons.inj htexts).2).2

theorem newline_notMem_lineText (position : Nat) {text : String} (h : '\n' ∉ text.toList) :
    '\n' ∉ lineText position text := by
  simp [lineText, Text.alignRight, Text.padding, Text.newline_notMem_toDigits, h]

theorem toList_line (position : Nat) (instruction : Instruction) :
    (line position instruction).toList = lineText position instruction.text ++ ['\n'] := by
  simp [line, lineText]

/-- The lines of a listing, without their newlines. -/
def lines (program : Program) : List (List Char) :=
  program.entries.map fun entry => lineText entry.1 entry.2.text

theorem toList_listing (program : Program) :
    program.listing.toList = program.lines.flatMap (· ++ ['\n']) := by
  rw [listing, lines, String.toList_join, List.flatMap_map, List.flatMap_map]
  simp only [toList_line]

theorem newline_notMem_of_mem_lines : ∀ line ∈ program.lines, '\n' ∉ line := by
  rw [lines, List.forall_mem_map]
  exact fun entry _ => newline_notMem_lineText entry.1 entry.2.newline_notMem_text

/-- The lines of two programs agree at an index if the same text stands at the next position. -/
theorem getElem?_lines_eq_iff (index : Nat) :
    program.lines[index]? = other.lines[index]? ↔
      (program.get? (index + 1)).map Instruction.text =
        (other.get? (index + 1)).map Instruction.text := by
  have hline (program : Program) : program.lines[index]? =
      ((program.get? (index + 1)).map Instruction.text).map (lineText (index + 1)) := by
    rw [lines, List.getElem?_map, getElem?_entries, Option.map_map, Option.map_map]
    rfl
  rw [hline, hline]
  exact Option.map_inj_right fun _ _ => lineText_inj

/-- A listing shows the texts of the instructions at their positions, and nothing else. -/
theorem listing_eq_iff :
    program.listing = other.listing ↔
      ∀ position, (program.get? position).map Instruction.text =
        (other.get? position).map Instruction.text := by
  rw [← String.toList_inj, toList_listing, toList_listing,
    Text.lines_inj newline_notMem_of_mem_lines newline_notMem_of_mem_lines, List.ext_getElem?_iff]
  simp only [getElem?_lines_eq_iff]
  constructor
  · intro h position
    cases position with
    | zero => rfl
    | succ index => exact h index
  · exact fun h index => h (index + 1)

/-- Programs with instructions at the same positions are of the same size. -/
theorem size_eq_of_isSome
    (h : ∀ position, (program.get? position).isSome = (other.get? position).isSome) :
    program.size = other.size := by
  have hiff (position : Nat) : (1 ≤ position ∧ position ≤ program.size) ↔
      (1 ≤ position ∧ position ≤ other.size) := by
    rw [← isSome_get?_iff, ← isSome_get?_iff, h]
  have hlast := hiff program.size
  have hotherLast := hiff other.size
  omega

/-- The texts at all positions agree if the programs have the same size and every two instructions
at one position have the same parts. -/
theorem map_text_eq_iff :
    (∀ position, (program.get? position).map Instruction.text =
        (other.get? position).map Instruction.text) ↔
      program.size = other.size ∧ ∀ position first second,
        program.get? position = some first → other.get? position = some second →
          first.mnemonic = second.mnemonic ∧ first.operand? = second.operand? := by
  constructor
  · intro h
    refine ⟨size_eq_of_isSome fun position => ?_, fun position first second hfirst hsecond => ?_⟩
    · have hsome := congrArg Option.isSome (h position)
      rwa [Option.isSome_map, Option.isSome_map] at hsome
    · have htext := h position
      rw [hfirst, hsecond] at htext
      exact Instruction.text_eq_iff.mp (Option.some.inj htext)
  · rintro ⟨hsize, hparts⟩ position
    cases hfirst : program.get? position with
    | none =>
      have hnone : other.get? position = none := by
        rw [get?_eq_none_iff] at hfirst ⊢
        omega
      rw [hnone]
    | some first =>
      have hinside := isSome_get?_iff.mp (Option.isSome_of_eq_some hfirst)
      rw [hsize] at hinside
      obtain ⟨second, hsecond⟩ := Option.isSome_iff_exists.mp (isSome_get?_iff.mpr hinside)
      rw [hsecond]
      have htext := Instruction.text_eq_iff.mpr (hparts position first second hfirst hsecond)
      exact congrArg some htext

/-- In legible programs, what stands at a position is told by its text. -/
theorem get?_eq_of_map_text (hlegible : program.Legible) (hother : other.Legible) {position : Nat}
    (h : (program.get? position).map Instruction.text =
      (other.get? position).map Instruction.text) :
    program.get? position = other.get? position := by
  cases hfirst : program.get? position with
  | none =>
    rw [hfirst] at h
    exact (Option.map_eq_none_iff.mp h.symm).symm
  | some first =>
    rw [hfirst] at h
    obtain ⟨second, hsecond, htext⟩ := Option.map_eq_some_iff.mp h.symm
    obtain ⟨hmnemonic, hoperand⟩ := Instruction.text_eq_iff.mp htext
    have hread := Instruction.ofParts?_parts (hlegible first (mem_of_get? hfirst))
    rw [← hmnemonic, ← hoperand,
      Instruction.ofParts?_parts (hother second (mem_of_get? hsecond))] at hread
    rw [hsecond, hread]

/-- The listing determines the program, as far as it shows it: only positions and literal addresses
above the largest value are lost. -/
theorem listing_determines_program (program other : Program) :
    (program.listing = other.listing ↔
      program.size = other.size ∧ ∀ position first second,
        program.get? position = some first → other.get? position = some second →
          first.mnemonic = second.mnemonic ∧ first.operand? = second.operand?) ∧
      (program.Legible → other.Legible → program.listing = other.listing → program = other) := by
  refine ⟨listing_eq_iff.trans map_text_eq_iff, fun hlegible hother h => ?_⟩
  apply ext_get?
  intro position
  exact get?_eq_of_map_text hlegible hother (listing_eq_iff.mp h position)

/-- A loop that is built and one that is written down have the same listing and are the same
program. Beyond the largest value a position is listed as that value, so there two programs share a
listing. -/
theorem listing_determines_program_clamped :
    let built := (Builder.empty.push (.read (.literal 9223372036854775807))).pushLoop.build.1
    let program := Program.ofList [.read (.literal 9223372036854775807), .jump 2]
    let beyond := Program.ofList [.read (.literal 9223372036854775808), .jump 2]
    (built.Legible ∧ program.Legible ∧ built = program) ∧
      beyond.listing = program.listing ∧ beyond ≠ program ∧ ¬ beyond.Legible := by
  intro built program beyond
  have hbuilt : built.Legible := by decide +kernel
  have hprogram : program.Legible := by decide +kernel
  have hbeyond : beyond.listing = program.listing := by
    apply (listing_determines_program beyond program).1.mpr
    refine ⟨rfl, fun position first second hfirst hsecond => ?_⟩
    have hinside : 1 ≤ position ∧ position ≤ 2 :=
      isSome_get?_iff.mp (Option.isSome_of_eq_some hfirst)
    obtain rfl | rfl : position = 1 ∨ position = 2 := by omega
    · obtain rfl : _ = first := Option.some.inj hfirst
      obtain rfl : _ = second := Option.some.inj hsecond
      exact ⟨rfl, by decide +kernel⟩
    · obtain rfl : _ = first := Option.some.inj hfirst
      obtain rfl : _ = second := Option.some.inj hsecond
      exact ⟨rfl, rfl⟩
  exact ⟨⟨hbuilt, hprogram, (listing_determines_program built program).2 hbuilt hprogram rfl⟩,
    hbeyond, by decide +kernel, by decide +kernel⟩

end Program

end RandomAccess
