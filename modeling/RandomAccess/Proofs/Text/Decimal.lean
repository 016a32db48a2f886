import RandomAccess.Text.Column
import RandomAccess.Text.Numeral

/-!
# Decimal text

A value in decimal is read back as the value, so no two values are written alike. In a list between
brackets a value ends at the comma or the bracket after it: the list is read back as well, and no
two lists are written alike.
-/

namespace RandomAccess.Text

/-- The numeral of a number consists of ASCII digits. -/
theorem isDigit_of_mem_repr {index : Nat} {c : Char} (h : c ∈ index.repr.toList) :
    c.isDigit = true := by
  rw [Nat.toList_repr] at h
  exact Nat.isDigit_of_mem_toDigits (by decide) (by decide) h

/-- A numeral denotes its number. -/
theorem digits?_repr (index : Nat) : digits? index.repr.toList = some index := by
  have hall : index.repr.toList.all Char.isDigit = true :=
    List.all_eq_true.mpr fun _ hc => isDigit_of_mem_repr hc
  have hnone : index.repr.toList.isEmpty = false := by simp
  rw [digits?, hall, hnone, if_neg (by decide), Nat.toList_repr,
    Nat.ofDigitChars_toDigits (by decide) (by decide)]

/-- A count is read back from its numeral. -/
theorem count?_repr {count : Nat} (h : count < UInt64.size) : count? count.repr = some count := by
  unfold count?
  split
  · next cs hcs =>
    have hplus : '+' ∈ count.repr.toList := hcs ▸ List.mem_cons_self
    exact absurd (isDigit_of_mem_repr hplus) (by decide)
  · rw [digits?_repr, Option.filter_some, if_pos (decide_eq_true h)]

/-- A text that begins with a digit is an integer without a sign. -/
theorem integer?_of_isDigit {text : String} (h : ∀ c ∈ text.toList, c.isDigit = true) :
    integer? text = (digits? text.toList).map Int.ofNat := by
  unfold integer?
  split
  · next cs hcs => exact absurd (h '+' (by simp [hcs])) (by decide)
  · next cs hcs => exact absurd (h '-' (by simp [hcs])) (by decide)
  · rfl

/-- A value is read back from its text. -/
theorem integer?_decimal (value : Int64) : integer? (decimal value) = some value.toInt := by
  rw [decimal, Int.repr_eq_if]
  split
  · next hpos =>
    rw [integer?_of_isDigit fun _ hc => isDigit_of_mem_repr hc, digits?_repr, Option.map_some,
      Int.ofNat_eq_natCast, Int.toNat_of_nonneg hpos]
  · next hneg =>
    have hchars : ("-" ++ (-value.toInt).toNat.repr).toList =
        '-' :: (-value.toInt).toNat.repr.toList := by simp
    simp only [integer?, hchars, digits?_repr, Option.map_some, Int.ofNat_eq_natCast]
    rw [Int.toNat_of_nonneg (by omega), Int.neg_neg]

/-- Values with the same text are the same. -/
theorem decimal_inj {value other : Int64} : decimal value = decimal other ↔ value = other := by
  refine ⟨fun h => ?_, congrArg decimal⟩
  have hread := integer?_decimal value
  rw [h, integer?_decimal] at hread
  exact (Int64.toInt_inj.mp (Option.some.inj hread)).symm

/-- A digit or a minus sign. -/
def isDecimal (c : Char) : Bool :=
  c.isDigit || c == '-'

/-- A value is written with digits and a minus sign. -/
theorem isDecimal_of_mem_decimal {value : Int64} {c : Char} (h : c ∈ (decimal value).toList) :
    isDecimal c = true := by
  rw [isDecimal, Bool.or_eq_true, beq_iff_eq]
  rw [decimal, Int.repr_eq_if] at h
  split at h
  · exact .inl (isDigit_of_mem_repr h)
  · rw [String.toList_append, List.mem_append] at h
    rcases h with hsign | hdigit
    · exact .inr (List.mem_singleton.mp hsign)
    · exact .inl (isDigit_of_mem_repr hdigit)

theorem toList_decimal_ne_nil (value : Int64) : (decimal value).toList ≠ [] := by
  intro h
  have hread := integer?_decimal value
  rw [integer?, h] at hread
  cases hread

/-- A word that goes as far as its characters do is told from what follows it. -/
theorem append_inj_of_takeWhile {inside : Char → Bool} {word other rest last : List Char}
    (hword : ∀ c ∈ word, inside c = true) (hother : ∀ c ∈ other, inside c = true)
    (hrest : rest.takeWhile inside = []) (hlast : last.takeWhile inside = [])
    (h : word ++ rest = other ++ last) : word = other ∧ rest = last := by
  have htaken := congrArg (List.takeWhile inside) h
  rw [List.takeWhile_append_of_pos hword, List.takeWhile_append_of_pos hother, hrest, hlast,
    List.append_nil, List.append_nil] at htaken
  exact ⟨htaken, List.append_cancel_left (htaken ▸ h)⟩

/-- What follows a value in a list: the other values, each after a comma, and the bracket. -/
def following : List Int64 → List Char
  | [] => [']']
  | value :: values => ',' :: ' ' :: (decimal value).toList ++ following values

theorem takeWhile_following (values : List Int64) :
    (following values).takeWhile isDecimal = [] := by
  cases values <;> rfl

theorem toList_bracketed_cons (value : Int64) (values : List Int64) :
    (bracketed (value :: values)).toList =
      '[' :: ((decimal value).toList ++ following values) := by
  have hfollowing : (", ".intercalate ((value :: values).map decimal)).toList ++ [']'] =
      (decimal value).toList ++ following values := by
    induction values generalizing value with
    | nil => simp [following]
    | cons next values ih =>
      rw [following, List.cons_append, List.cons_append, ← ih next]
      simp
  simp [bracketed, ← hfollowing]

/-- Values that end in the same text are followed by the same text. -/
theorem decimal_append_following_inj {value other : Int64} {values others : List Int64}
    (h : (decimal value).toList ++ following values = (decimal other).toList ++ following others) :
    value = other ∧ following values = following others := by
  obtain ⟨hvalue, hrest⟩ := append_inj_of_takeWhile (fun _ => isDecimal_of_mem_decimal)
    (fun _ => isDecimal_of_mem_decimal) (takeWhile_following values) (takeWhile_following others) h
  exact ⟨decimal_inj.mp (String.toList_inj.mp hvalue), hrest⟩

theorem following_inj {values others : List Int64} :
    following values = following others ↔ values = others := by
  refine ⟨fun h => ?_, congrArg following⟩
  induction values generalizing others with
  | nil =>
    cases others with
    | nil => rfl
    | cons other others => cases h
  | cons value values ih =>
    cases others with
    | nil => cases h
    | cons other others =>
      obtain ⟨rfl, hrest⟩ :=
        decimal_append_following_inj (List.cons.inj (List.cons.inj h).2).2
      rw [ih hrest]

/-- Between the brackets stands nothing only if there is no value. -/
theorem bracketed_cons_ne_nil (value : Int64) (values : List Int64) :
    bracketed (value :: values) ≠ bracketed [] := by
  intro h
  have hchars := congrArg String.toList h
  have hempty : (bracketed []).toList = '[' :: ([] ++ [']']) := by simp [bracketed]
  rw [toList_bracketed_cons, hempty] at hchars
  exact toList_decimal_ne_nil value (append_inj_of_takeWhile (fun _ => isDecimal_of_mem_decimal)
    (fun _ hc => absurd hc List.not_mem_nil) (takeWhile_following values) rfl
    (List.cons.inj hchars).2).1

/-- Lists of values with the same text are the same. -/
theorem bracketed_inj {values others : List Int64} :
    bracketed values = bracketed others ↔ values = others := by
  refine ⟨fun h => ?_, congrArg bracketed⟩
  cases values with
  | nil =>
    cases others with
    | nil => rfl
    | cons other others => exact absurd h.symm (bracketed_cons_ne_nil other others)
  | cons value values =>
    cases others with
    | nil => exact absurd h (bracketed_cons_ne_nil value values)
    | cons other others =>
      have hchars := congrArg String.toList h
      rw [toList_bracketed_cons, toList_bracketed_cons] at hchars
      obtain ⟨rfl, hrest⟩ := decimal_append_following_inj (List.cons.inj hchars).2
      rw [following_inj.mp hrest]

end RandomAccess.Text
