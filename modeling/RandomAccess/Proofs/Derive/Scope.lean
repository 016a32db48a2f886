import Mathlib.Data.List.Forall2
import RandomAccess.Derive.Display

/-!
# What the words of an arm stand for

An arm stands in the body of a function with two parameters, the value that is displayed and the
formatter that its text is written to. The pattern of the arm binds fields of the value, and a field
that is bound under the name of a parameter hides the parameter in the rest of the arm. The fields
of a tuple variant are bound under names that nothing else has; those of any other variant keep the
names that they were given.
-/

namespace RandomAccess.Derive

/-- The identifier that a word of source text is. A raw one is written with a mark in front, which
is no part of it. -/
def identifier (word : String) : String :=
  match word.toList with
  | 'r' :: '#' :: cs => String.ofList cs
  | _ => word

/-- What an identifier stands for in an arm. -/
inductive Referent where
  /-- The field that is bound at this place of the pattern. -/
  | field (place : Nat)
  /-- The value that is displayed. -/
  | receiver
  /-- What the text is written to. -/
  | formatter
  deriving DecidableEq, Repr, Inhabited

/-- What an identifier stands for around the arms, among the parameters `self` and `f`. -/
def parameter? (name : String) : Option Referent :=
  if name = "self" then some .receiver else if name = "f" then some .formatter else none

/-- The identifiers that a pattern binds, each at its place. -/
def Pattern.places : Pattern → List (Option String)
  | unit => []
  | named fields => fields.map fun field => some (identifier field)
  | tuple slots => slots

/-- What a word stands for in an arm. The pattern is closer than the parameters. -/
def Arm.referent? (arm : Arm) (word : String) : Option Referent :=
  ((arm.pattern.places.idxOf? (some (identifier word))).map .field).or
    (parameter? (identifier word))

/-- What the call is given to write the message. -/
def Arm.callTokens (arm : Arm) : List String :=
  ["f", ",", literal arm.format] ++ arm.argumentTokens

theorem Arm.text_eq_callTokens (arm : Arm) :
    arm.text = sequence (["Self", "::", arm.variant] ++ arm.pattern.tokens ++
      ["=>", "::", "std", "::", "write", "!", parenthesized arm.callTokens, ","]) :=
  rfl

/-- What the call writes to: its first word, as it is understood in the arm. -/
def Arm.writesTo? (arm : Arm) : Option Referent :=
  arm.callTokens.head?.bind arm.referent?

/-- The message of the variant refers to a field with the identifier of the formatter. -/
def Variant.HidesFormatter (variant : Variant) : Prop :=
  ∃ names message, variant.fields = .named names ∧ variant.message = .ok message ∧
    ∃ field ∈ names, identifier field = "f" ∧ Template.references message field = true

variable {variant : Variant} {arm : Arm}

/-- The call writes to the formatter unless the pattern binds its identifier. -/
theorem Arm.writesTo?_of_notMem (h : some "f" ∉ arm.pattern.places) :
    arm.writesTo? = some .formatter := by
  have hf : identifier "f" = "f" := by decide
  change arm.referent? "f" = _
  rw [referent?, hf, List.idxOf?_eq_none_iff.mpr h]
  rfl

/-- Otherwise it writes to the field that is bound under it. -/
theorem Arm.writesTo?_of_mem (h : some "f" ∈ arm.pattern.places) :
    ∃ place, arm.writesTo? = some (.field place) := by
  have hf : identifier "f" = "f" := by decide
  obtain ⟨place, hplace⟩ := Option.isSome_iff_exists.mp (List.isSome_idxOf?.mpr h)
  refine ⟨place, ?_⟩
  change arm.referent? "f" = _
  rw [referent?, hf, hplace, Option.map_some, Option.some_or]

theorem Arm.writesTo?_iff :
    arm.writesTo? = some .formatter ↔ some "f" ∉ arm.pattern.places := by
  refine ⟨fun hwrites hmem => ?_, Arm.writesTo?_of_notMem⟩
  obtain ⟨place, hplace⟩ := Arm.writesTo?_of_mem hmem
  rw [hwrites] at hplace
  cases hplace

/-- The names for the fields of a tuple variant start with an underscore. -/
theorem slotName_ne (index : Nat) : slotName index ≠ "f" := by
  intro h
  have hfirst := congrArg (fun name => name.toList.head?) h
  simp [slotName] at hfirst

theorem Arm.ofVariant_eq_ok_iff :
    Arm.ofVariant variant = .ok arm ↔
      ∃ message, variant.message = .ok message ∧
        arm = .ofMessage variant.name message variant.fields := by
  rw [ofVariant]
  cases variant.message with
  | error rejection => simp [bind, Except.bind]
  | ok message => simp [bind, Except.bind, pure, Except.pure, eq_comm]

/-- Of all fields only a named one can be bound under the identifier of the formatter. -/
theorem mem_places_iff (h : Arm.ofVariant variant = .ok arm) :
    some "f" ∈ arm.pattern.places ↔ variant.HidesFormatter := by
  obtain ⟨message, hmessage, rfl⟩ := Arm.ofVariant_eq_ok_iff.mp h
  unfold Variant.HidesFormatter
  cases hfields : variant.fields with
  | unit => simp [Arm.ofMessage, Pattern.places]
  | tuple count => simp [Arm.ofMessage, Pattern.places, slots, slotName_ne]
  | named names =>
    simp only [Arm.ofMessage, Pattern.places, hmessage, List.mem_map, List.mem_filter,
      Option.some.injEq, Fields.named.injEq, Except.ok.injEq]
    constructor
    · rintro ⟨field, ⟨hmem, hrefers⟩, hf⟩
      exact ⟨names, message, rfl, rfl, field, hmem, hf, hrefers⟩
    · rintro ⟨_, _, rfl, rfl, field, hmem, hf, hrefers⟩
      exact ⟨field, ⟨hmem, hrefers⟩, hf⟩

/-- A display has the arms of the variants, in their order. -/
theorem Display.forall₂_of_mapM {variants : List Variant} {arms : List Arm}
    (h : variants.mapM Arm.ofVariant = .ok arms) :
    List.Forall₂ (fun variant arm => Arm.ofVariant variant = .ok arm) variants arms := by
  induction variants generalizing arms with
  | nil =>
    obtain rfl : [] = arms := by simpa [pure, Except.pure] using h
    exact .nil
  | cons variant variants ih =>
    rw [List.mapM_cons] at h
    cases harm : Arm.ofVariant variant with
    | error rejection => simp [harm, bind, Except.bind] at h
    | ok arm =>
      cases harms : variants.mapM Arm.ofVariant with
      | error rejection => simp [harm, harms, bind, Except.bind] at h
      | ok rest =>
        obtain rfl : arm :: rest = arms := by
          simpa [harm, harms, bind, Except.bind, pure, Except.pure] using h
        exact .cons harm (ih harms)

theorem Display.forall₂_of_ofItem {name : String} {variants : List Variant} {display : Display}
    (h : Display.ofItem (.enumeration name variants) = .ok display) :
    List.Forall₂ (fun variant arm => Arm.ofVariant variant = .ok arm) variants display.arms := by
  cases harms : variants.mapM Arm.ofVariant with
  | error rejection => simp [ofItem, harms, bind, Except.bind] at h
  | ok arms =>
    obtain rfl : ⟨name, arms⟩ = display := by
      simpa [ofItem, harms, bind, Except.bind, pure, Except.pure] using h
    exact forall₂_of_mapM harms

/-- Of all the arms of a display exactly those write to the formatter whose variant's message refers
to no named field with the identifier of the formatter; just the others bind that identifier. -/
theorem formatter_hidden_iff {name : String} {variants : List Variant} {display : Display}
    (h : Display.ofItem (.enumeration name variants) = .ok display) :
    List.Forall₂ (fun variant arm =>
      (arm.writesTo? = some .formatter ↔ ¬ variant.HidesFormatter) ∧
        (some "f" ∈ arm.pattern.places ↔ variant.HidesFormatter)) variants display.arms := by
  refine (Display.forall₂_of_ofItem h).imp fun variant arm harm => ?_
  have hplaces := mem_places_iff harm
  exact ⟨Arm.writesTo?_iff.trans (not_congr hplaces), hplaces⟩

/-- A field is bound, and hides the formatter, only if the message refers to it. -/
theorem formatter_hidden_iff_referred :
    let variants : List Variant :=
      [⟨"Cut", [.message "\x7bf\x7d"], .named ["f", "g"]⟩,
        ⟨"Kept", [.message "\x7bg\x7d"], .named ["f", "g"]⟩]
    ∃ arms, Display.ofItem (.enumeration "Fault" variants) = .ok ⟨"Fault", arms⟩ ∧
      List.Forall₂ (fun variant arm =>
        (arm.writesTo? = some .formatter ↔ ¬ variant.HidesFormatter) ∧
          (some "f" ∈ arm.pattern.places ↔ variant.HidesFormatter)) variants arms := by
  intro variants
  have hdisplay : Display.ofItem (.enumeration "Fault" variants) = .ok ⟨"Fault",
      [⟨"Cut", .named ["f"], "\x7bf\x7d", ["f"]⟩, ⟨"Kept", .named ["g"], "\x7bg\x7d", ["g"]⟩]⟩ := by
    cbv
  exact ⟨_, hdisplay, formatter_hidden_iff hdisplay⟩

/-- The arm of a variant whose message refers to a field `f` writes to that field. -/
theorem field_hides_formatter :
    ∃ arm, Display.ofItem (.enumeration "Fault" [⟨"Cut", [.message "\x7bf\x7d"], .named ["f"]⟩]) =
        .ok ⟨"Fault", [arm]⟩ ∧
      arm.pattern.places = [some "f"] ∧ arm.writesTo? = some (.field 0) := by
  refine ⟨⟨"Cut", .named ["f"], "\x7bf\x7d", ["f"]⟩, ?_, ?_, ?_⟩
  · cbv
  · decide
  · decide

end RandomAccess.Derive
