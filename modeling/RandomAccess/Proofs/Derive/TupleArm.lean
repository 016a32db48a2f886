import Mathlib.Data.List.Nodup
import RandomAccess.Proofs.Derive.Scope
import RandomAccess.Proofs.Template.Lockstep
import RandomAccess.Proofs.Text.Decimal

/-!
# The arm of a tuple variant

The fields of a tuple variant are bound under their numerals, each with an underscore in front, and
the message is renamed to match. What is bound is found by comparing the names in the message with
the numerals of the fields; what is renamed are all names of digits. The two agree on every name
that is written as the numeral of its number, and on no other.
-/

namespace RandomAccess.Derive

open Template Text

section Numerals

theorem positional_repr (index : Nat) : Positional index.repr := by
  refine ⟨Nat.repr_ne_empty, fun c hc => ?_⟩
  simpa [Char.isDigit, Char.le_def] using isDigit_of_mem_repr hc

/-- The numeral of a field is renamed to the name that the field is bound under. -/
theorem renamed_repr (index : Nat) : renamed index.repr = slotName index :=
  if_pos (positional_repr index)

/-- What denotes a number is positional, and the other way around. -/
theorem digits?_eq_some_iff {name : String} {index : Nat} :
    digits? name.toList = some index ↔
      Positional name ∧ Nat.ofDigitChars 10 name.toList 0 = index := by
  rw [← isPositional_toList_iff, isPositional, digits?]
  cases name.toList.isEmpty <;> cases name.toList.all Char.isDigit <;> simp

theorem underscored_inj {first second : String} :
    "_" ++ first = "_" ++ second ↔ first = second := by
  rw [← String.toList_inj, ← String.toList_inj]
  simp

/-- Each field has a name of its own. -/
theorem slotName_injective : Function.Injective slotName := by
  intro first second h
  have hdigits := digits?_repr first
  rw [underscored_inj.mp h, digits?_repr] at hdigits
  exact (Option.some.inj hdigits).symm

end Numerals

/-- The fields whose numerals are names in the message, in ascending order. -/
def boundFields (message : String) (count : Nat) : List Nat :=
  (List.range count).filter fun index => references message index.repr

variable (variant message : String) (count : Nat)

theorem mem_boundFields {index : Nat} :
    index ∈ boundFields message count ↔
      index < count ∧ index.repr ∈ Template.arguments message := by
  rw [boundFields, List.mem_filter, List.mem_range, references, List.contains_iff_mem]

/-- An arm passes the bound fields. -/
theorem arguments_ofMessage_tuple :
    (Arm.ofMessage variant message (.tuple count)).arguments =
      (boundFields message count).map slotName := by
  change (slots message count).filterMap id = _
  rw [slots, boundFields, List.filterMap_map, ← List.filterMap_eq_map, List.filterMap_filter]
  rfl

theorem slotName_mem_arguments {index : Nat} :
    slotName index ∈ (Arm.ofMessage variant message (.tuple count)).arguments ↔
      index ∈ boundFields message count := by
  rw [arguments_ofMessage_tuple]
  exact List.mem_map_of_injective slotName_injective

/-- The names in the format are those of the message, renamed. -/
theorem arguments_format_tuple :
    Template.arguments (Arm.ofMessage variant message (.tuple count)).format =
      (Template.arguments message).map renamed :=
  arguments_renamePositional message

/-- A field has its name at its place exactly if the name is passed. -/
theorem getElem?_slots {index : Nat} (h : index < count) :
    (slots message count)[index]? =
      some (if slotName index ∈ (Arm.ofMessage variant message (.tuple count)).arguments then
        some (slotName index) else none) := by
  rw [slots, List.getElem?_map, List.getElem?_range h]
  simp only [Option.map_some, slotName_mem_arguments, mem_boundFields, h, true_and, references,
    List.contains_iff_mem]

/-- A name of digits is bound exactly if it is the numeral of the field that it denotes. -/
theorem underscored_mem_arguments {name : String} {index : Nat}
    (hmem : name ∈ Template.arguments message) (hdigits : digits? name.toList = some index)
    (hlt : index < count) :
    "_" ++ name ∈ (Arm.ofMessage variant message (.tuple count)).arguments ↔ name = index.repr := by
  rw [arguments_ofMessage_tuple, List.mem_map]
  constructor
  · rintro ⟨other, -, hname⟩
    obtain rfl : other.repr = name := underscored_inj.mp hname
    rw [digits?_repr] at hdigits
    rw [Option.some.inj hdigits]
  · rintro rfl
    exact ⟨index, (mem_boundFields message count).mpr ⟨hlt, hmem⟩, rfl⟩

/-- The arm of a tuple variant names the fields that are passed to its format, and a placeholder
that denotes a field gets it exactly if it was written as the numeral of the field. -/
theorem tuple_arm_binds_numerals :
    (Arm.ofMessage variant message (.tuple count)).pattern = .tuple (slots message count) ∧
    (slots message count).length = count ∧
    let arm := Arm.ofMessage variant message (.tuple count)
    (∀ index < count, (slots message count)[index]? =
      some (if slotName index ∈ arm.arguments then some (slotName index) else none)) ∧
    (∃ fields : List Nat, fields.Pairwise (· < ·) ∧ (∀ index ∈ fields, index < count) ∧
      arm.arguments = fields.map slotName ∧ arm.arguments.Nodup) ∧
    (∀ name ∈ arm.arguments, name ∈ Template.arguments arm.format) ∧
    ∀ (place : Nat) name index, (Template.arguments message)[place]? = some name →
      digits? name.toList = some index → index < count →
        (Template.arguments arm.format)[place]? = some ("_" ++ name) ∧
          ("_" ++ name ∈ arm.arguments ↔ name = index.repr) := by
  refine ⟨rfl, by simp [slots], ?_⟩
  intro arm
  have harguments : arm.arguments = (boundFields message count).map slotName :=
    arguments_ofMessage_tuple variant message count
  have hascending : (boundFields message count).Pairwise (· < ·) :=
    List.pairwise_lt_range.filter _
  refine ⟨fun index hlt => getElem?_slots variant message count hlt,
    ⟨boundFields message count, hascending, fun index hindex => ?_, harguments, ?_⟩, ?_, ?_⟩
  · exact ((mem_boundFields message count).mp hindex).1
  · rw [harguments]
    exact (List.nodup_range.filter _).map slotName_injective
  · rw [harguments, arguments_format_tuple]
    intro name hname
    obtain ⟨index, hindex, rfl⟩ := List.mem_map.mp hname
    rw [← renamed_repr]
    exact List.mem_map_of_mem ((mem_boundFields message count).mp hindex).2
  · intro place name index hplace hdigits hlt
    refine ⟨?_, underscored_mem_arguments variant message count
      (List.mem_of_getElem? hplace) hdigits hlt⟩
    rw [arguments_format_tuple, List.getElem?_map, hplace]
    exact congrArg some (if_pos (digits?_eq_some_iff.mp hdigits).1)

/-- A numeral with a zero in front denotes a field too, but the name that it is renamed to is not
bound. -/
theorem padded_numeral_unbound :
    let arm := Arm.ofMessage "Shown" "\x7b00\x7d" (.tuple 1)
    Template.arguments "\x7b00\x7d" = ["00"] ∧ digits? "00".toList = some 0 ∧
      Template.arguments arm.format = ["_00"] ∧ arm.arguments = [] := by
  have hnames : Template.arguments "\x7b00\x7d" = ["00"] := by cbv
  have hdigits : digits? "00".toList = some 0 := by decide
  refine ⟨hnames, hdigits, ?_, ?_⟩
  · rw [arguments_format_tuple, hnames, List.map_singleton, renamed,
      if_pos (digits?_eq_some_iff.mp hdigits).1]
    rfl
  · have hbound : boundFields "\x7b00\x7d" 1 = [] := by
      refine List.filter_eq_nil_iff.mpr fun index hindex => ?_
      rw [Nat.lt_one_iff.mp (List.mem_range.mp hindex), references, hnames]
      decide
    rw [arguments_ofMessage_tuple, hbound, List.map_nil]

end RandomAccess.Derive
