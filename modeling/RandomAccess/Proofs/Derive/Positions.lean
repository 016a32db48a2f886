import RandomAccess.Proofs.Derive.TupleArm
import RandomAccess.Proofs.Template.FormatSpec

/-!
# Widths and precisions taken from fields

A message can ask for a width or a precision by the position of a field. The format keeps such a
position as it stands, but there it counts the arguments that are passed, and these are the fields
whose numerals are names in the message. So a position is understood as the message means it as long
as all the fields up to it are named.
-/

namespace RandomAccess.Derive

open Template

section Positions

/-- A list that ascends from a bound has a number at its own distance from the bound exactly if it
leaves out none of the numbers up to it. -/
theorem getElem?_eq_some_add_iff (bound : Nat) {fields : List Nat}
    (hascending : fields.Pairwise (· < ·)) (hbound : ∀ index ∈ fields, bound ≤ index)
    (place : Nat) :
    fields[place]? = some (bound + place) ↔ ∀ index < place + 1, bound + index ∈ fields := by
  induction fields generalizing bound place with
  | nil =>
    simp only [List.getElem?_nil, List.not_mem_nil, imp_false, reduceCtorEq, false_iff]
    exact fun hnone => hnone 0 (Nat.succ_pos _)
  | cons first rest ih =>
    obtain ⟨hfirst, hrest⟩ := List.pairwise_cons.mp hascending
    have hle := hbound first List.mem_cons_self
    have hstart : bound ∈ first :: rest ↔ first = bound := by
      rw [List.mem_cons, eq_comm, or_iff_left]
      intro hmem
      have := hfirst bound hmem
      omega
    cases place with
    | zero => simpa using hstart.symm
    | succ place =>
      -- the places of the rest are counted from the next number on
      have hnext : ∀ index ∈ rest, bound + 1 ≤ index := by
        intro index hmem
        have := hfirst index hmem
        omega
      have hshift (index : Nat) : bound + (index + 1) = bound + 1 + index := by omega
      rw [List.getElem?_cons_succ, Nat.forall_lt_succ_left, hshift, ih (bound + 1) hrest hnext]
      constructor
      · intro hall
        have := hfirst _ (hall 0 (Nat.succ_pos _))
        refine ⟨hstart.mpr (by omega), fun index hindex => ?_⟩
        rw [hshift]
        exact List.mem_cons_of_mem _ (hall index hindex)
      · rintro ⟨hmem, hall⟩ index hindex
        obtain rfl := hstart.mp hmem
        rw [← hshift]
        exact (List.mem_cons.mp (hall index hindex)).resolve_left (by omega)

/-- Counted from zero. -/
theorem getElem?_eq_some_self_iff {fields : List Nat} (hascending : fields.Pairwise (· < ·))
    (place : Nat) : fields[place]? = some place ↔ ∀ index ≤ place, index ∈ fields := by
  have hiff := getElem?_eq_some_add_iff 0 hascending (fun _ _ => Nat.zero_le _) place
  simpa only [Nat.zero_add, Nat.lt_succ_iff] using hiff

end Positions

/-- What the argument at a position of the call stands for. -/
def Arm.argument? (arm : Arm) (position : Nat) : Option Referent :=
  arm.arguments[position]?.bind arm.referent?

/-- The fields that are named by placeholders, in ascending order. -/
def namedFields (segments : List Segment) (count : Nat) : List Nat :=
  (List.range count).filter fun index =>
    (segments.filterMap Segment.name?).contains index.repr

section Arguments

variable (variant message : String) (count : Nat)

/-- A name that is passed stands for the field that is bound under it. -/
theorem referent?_slotName {index : Nat} (h : index ∈ boundFields message count) :
    (Arm.ofMessage variant message (.tuple count)).referent? (slotName index) =
      some (.field index) := by
  have hchars : (slotName index).toList = '_' :: index.repr.toList := by
    simp [slotName]
  have hidentifier : identifier (slotName index) = slotName index := by
    rw [identifier, hchars]
    rfl
  have hplace : (slots message count).idxOf? (some (slotName index)) = some index := by
    obtain ⟨hlt, hmem⟩ := (mem_boundFields message count).mp h
    have hrefers : references message index.repr = true := List.contains_iff_mem.mpr hmem
    rw [List.idxOf?_eq_some_iff]
    refine ⟨by simpa [slots] using hlt, by simp [slots, hrefers], fun other hother heq => ?_⟩
    simp only [slots, List.getElem_map, List.getElem_range] at heq
    split at heq
    · have := slotName_injective (Option.some.inj heq)
      omega
    · cases heq
  rw [Arm.referent?, hidentifier]
  change (((slots message count).idxOf? (some (slotName index))).map Referent.field).or _ = _
  rw [hplace, Option.map_some, Option.some_or]

/-- The arguments are the bound fields, one after another. -/
theorem argument?_ofMessage_tuple (position : Nat) :
    (Arm.ofMessage variant message (.tuple count)).argument? position =
      ((boundFields message count)[position]?).map Referent.field := by
  rw [Arm.argument?, arguments_ofMessage_tuple, List.getElem?_map]
  cases h : (boundFields message count)[position]? with
  | none => rfl
  | some index => exact referent?_slotName variant message count (List.mem_of_getElem? h)

end Arguments

variable (variant : String) (count : Nat) (segments : List Segment)

/-- The fields bound for a message are those that its placeholders name. -/
theorem boundFields_message :
    boundFields (message segments) count = namedFields segments count := by
  rw [boundFields, namedFields, ← arguments_message]
  rfl

/-- The format is the message with its placeholders renamed and everything else in its place. -/
theorem format_message :
    (Arm.ofMessage variant (message segments) (.tuple count)).format =
      message (segments.map Segment.rename) :=
  renamePositional_message segments

/-- A position that a width or a precision is taken from counts the named fields in ascending order;
it leads to the field that the message means exactly if all fields up to this one are named. -/
theorem position_counts_named_fields {placeholder : Placeholder} {position : Nat}
    (hmem : .argument placeholder ∈ segments) (htakes : placeholder.Takes position) :
    let arm := Arm.ofMessage variant (message segments) (.tuple count)
    arm.format = message (segments.map Segment.rename) ∧
      .argument placeholder.rename ∈ segments.map Segment.rename ∧
      placeholder.rename.Takes position ∧
      arm.argument? position = ((namedFields segments count)[position]?).map Referent.field ∧
      (arm.argument? position = some (.field position) ↔
        ∀ index ≤ position, index ∈ namedFields segments count) := by
  intro arm
  have hargument : arm.argument? position =
      ((namedFields segments count)[position]?).map Referent.field := by
    rw [argument?_ofMessage_tuple, boundFields_message]
  refine ⟨format_message variant count segments, List.mem_map.mpr ⟨_, hmem, rfl⟩,
    (placeholder.takes_rename position).mpr htakes, hargument, ?_⟩
  have hascending : (namedFields segments count).Pairwise (· < ·) :=
    List.pairwise_lt_range.filter _
  rw [hargument, ← getElem?_eq_some_self_iff hascending]
  simp

section Wide

/-- The placeholder of field 1 with a width from position 0. -/
def wide : Placeholder :=
  ⟨⟨"1", by decide, by decide⟩, by decide, some ⟨"0$", by decide, by decide⟩⟩

theorem wide_takes_zero : wide.Takes 0 := by
  refine ⟨⟨none, none, false, false, some (.argument 0), none, "", by decide⟩, ?_, ?_⟩
  · decide
  · decide

/-- With both fields named the width comes from the field that the message means. -/
theorem position_counts_named_fields_both :
    let zero : Placeholder := ⟨⟨"0", by decide, by decide⟩, by decide, none⟩
    let segments : List Segment := [.argument wide, .argument zero]
    message segments = "\x7b1:0$\x7d\x7b0\x7d" ∧ .argument wide ∈ segments ∧ wide.Takes 0 ∧
      (Arm.ofMessage "Shown" (message segments) (.tuple 2)).argument? 0 = some (.field 0) := by
  intro zero segments
  have hmem : .argument wide ∈ segments := List.mem_cons_self
  have hnamed : namedFields segments 2 = [0, 1] := by decide
  refine ⟨by decide, hmem, wide_takes_zero, ?_⟩
  refine (position_counts_named_fields "Shown" 2 segments hmem wide_takes_zero).2.2.2.2.mpr ?_
  intro index hindex
  rw [hnamed, Nat.le_zero.mp hindex]
  exact List.mem_cons_self

/-- With only field 1 named the width comes from it, although the message asks for field 0. -/
theorem width_of_unnamed_field :
    let segments : List Segment := [.argument wide]
    message segments = "\x7b1:0$\x7d" ∧ wide.Takes 0 ∧
      (Arm.ofMessage "Shown" (message segments) (.tuple 2)).argument? 0 = some (.field 1) := by
  have hnamed : namedFields [.argument wide] 2 = [1] := by decide
  refine ⟨by decide, wide_takes_zero, ?_⟩
  rw [argument?_ofMessage_tuple, boundFields_message, hnamed]
  rfl

end Wide

end RandomAccess.Derive
