import RandomAccess.Proofs.Cost.Totals

/-!
# The profile of a trace

Every amount of a profile is cut to the largest one on its own, whenever its category comes to it,
and their sum is cut once more. It still is the exact sum, cut once. So the profile of a trace adds
up to its logarithmic cost, however many of the counters are full, and nothing in a report tells in
which order the steps were charged.
-/

namespace RandomAccess.Cost

/-- The exact sum of the amounts that are charged to a category. -/
def charged (category : Category) (charges : List (Category × Nat)) : Nat :=
  ((charges.filter fun charge => charge.1 = category).map Prod.snd).sum

/-- What a step is charged in the logarithmic model, with its category. -/
def chargeOf (step : Step) : Category × Nat :=
  (step.instruction.category, weight .logarithmic step.instruction step.registers)

/-- Two amounts are added in either order, also where the sum is cut in between. -/
theorem saturatingAdd_right_comm (total first second : Nat) :
    saturatingAdd (saturatingAdd total first) second =
      saturatingAdd (saturatingAdd total second) first := by
  simp only [saturatingAdd]
  omega

theorem charged_cons (category : Category) (charge : Category × Nat)
    (charges : List (Category × Nat)) :
    charged category (charge :: charges) =
      (if category = charge.1 then charge.2 else 0) + charged category charges := by
  by_cases h : category = charge.1
  · simp [charged, h]
  · simp [charged, h, Ne.symm h]

/-- Every charge counts for one category. -/
theorem sum_charged (charges : List (Category × Nat)) :
    (Category.all.map fun category => charged category charges).sum =
      (charges.map Prod.snd).sum := by
  induction charges with
  | nil => rfl
  | cons charge charges ih =>
    obtain ⟨category, amount⟩ := charge
    rw [List.map_cons, List.sum_cons, ← ih]
    simp only [Category.all, List.map_cons, List.map_nil, List.sum_cons, List.sum_nil, charged_cons]
    cases category <;> simp only [reduceCtorEq, if_true, if_false] <;> omega

/-- What is charged to a category in a trace are the weights of its steps. -/
theorem charged_map_chargeOf (category : Category) (trace : List Step) :
    charged category (trace.map chargeOf) =
      ((trace.filter fun step => step.instruction.category = category).map fun step =>
        weight .logarithmic step.instruction step.registers).sum := by
  rw [charged, List.filter_map, List.map_map]
  rfl

namespace Profile

/-- The profile of charges that are added one after another. -/
def ofCharges (charges : List (Category × Nat)) : Profile :=
  charges.foldl (fun profile charge => profile.add charge.1 charge.2) {}

/-- Charges are added to a category up to the largest amount, whatever the others come to. -/
theorem get_foldl_add (charges : List (Category × Nat)) {profile : Profile} {category : Category}
    (h : profile.get category ≤ ceiling) :
    (charges.foldl (fun profile charge => profile.add charge.1 charge.2) profile).get category =
      min (profile.get category + charged category charges) ceiling := by
  induction charges generalizing profile with
  | nil => exact (Nat.min_eq_left h).symm
  | cons charge charges ih =>
    have hadd := profile.get_add charge.1 category charge.2
    by_cases hcategory : category = charge.1
    · rw [if_pos hcategory, saturatingAdd] at hadd
      rw [List.foldl_cons, ih (hadd ▸ Nat.min_le_right _ _), hadd, charged_cons, if_pos hcategory]
      omega
    · rw [if_neg hcategory] at hadd
      rw [List.foldl_cons, ih (hadd ▸ h), hadd, charged_cons, if_neg hcategory, Nat.zero_add]

/-- A category holds the exact sum of its charges, up to the largest amount. -/
theorem get_ofCharges (charges : List (Category × Nat)) (category : Category) :
    (ofCharges charges).get category = min (charged category charges) ceiling := by
  have hempty : ({} : Profile).get category = 0 := by
    cases category <;> rfl
  have hbound : ({} : Profile).get category ≤ ceiling := by
    rw [hempty]
    exact Nat.zero_le ceiling
  rw [ofCharges, get_foldl_add charges hbound, hempty, Nat.zero_add]

/-- The total is the exact sum of all charges, up to the largest amount. -/
theorem total_ofCharges (charges : List (Category × Nat)) :
    (ofCharges charges).total = min (charges.map Prod.snd).sum ceiling := by
  rw [total, foldl_saturatingAdd _ _ (Nat.zero_le _), ← sum_charged charges]
  simp only [entries, Category.all, List.map_cons, List.map_nil, List.sum_cons, List.sum_nil,
    get_ofCharges]
  -- amounts that are cut one by one come to the same total as the exact ones
  omega

/-- Two amounts are added in either order. -/
theorem add_right_comm (profile : Profile) (first second : Category × Nat) :
    (profile.add first.1 first.2).add second.1 second.2 =
      (profile.add second.1 second.2).add first.1 first.2 := by
  obtain ⟨category, amount⟩ := first
  obtain ⟨other, more⟩ := second
  cases category <;> cases other <;> simp only [add, saturatingAdd_right_comm]

end Profile

/-- The logarithmic cost of a trace is the exact sum of its weights, up to the largest amount. -/
theorem logarithmic_analyze (trace : List Step) :
    (analyze trace).logarithmic =
      min (trace.map fun step => weight .logarithmic step.instruction step.registers).sum
        ceiling := by
  have hfold : (analyze trace).logarithmic = trace.foldl (fun total step =>
      saturatingAdd total (weight .logarithmic step.instruction step.registers)) 0 :=
    (List.foldl_hom Report.logarithmic fun _ _ => rfl).symm
  rw [hfold, foldl_saturatingAdd _ _ (Nat.zero_le _), Nat.zero_add]

/-- The profile of a trace is that of the charges of its steps. -/
theorem profile_analyze (trace : List Step) :
    (analyze trace).profile = .ofCharges (trace.map chargeOf) := by
  rw [Profile.ofCharges, List.foldl_map]
  exact (List.foldl_hom Report.profile fun _ _ => rfl).symm

/-- Two steps are charged in either order. -/
theorem Report.charge_right_comm (report : Report) (first second : Step) :
    (report.charge first).charge second = (report.charge second).charge first := by
  have hprofile := report.profile.add_right_comm (chargeOf first) (chargeOf second)
  simp only [chargeOf] at hprofile
  simp only [charge, hprofile, saturatingAdd_right_comm]

/-- A trace costs the same in every order of its steps. -/
theorem analyze_perm {trace other : List Step} (h : trace.Perm other) :
    analyze other = analyze trace :=
  h.symm.foldl_eq' (fun _ _ _ _ report => Report.charge_right_comm report _ _) {}

/-- The totals of a report are exact sums as far as is counted, also where some of its counters are
full, and the order of the steps does not matter. -/
theorem totals_are_exact (trace : List Step) (charges : List (Category × Nat)) :
    let amount (step : Step) := weight .logarithmic step.instruction step.registers
    (analyze trace).uniform = min (trace.countP fun step => step.instruction ≠ .halt) ceiling ∧
      (analyze trace).logarithmic = min (trace.map amount).sum ceiling ∧
      (∀ category, (analyze trace).profile.get category =
        min ((trace.filter fun step => step.instruction.category = category).map amount).sum
          ceiling) ∧
      (analyze trace).profile.total = (analyze trace).logarithmic ∧
      (∀ other, trace.Perm other → analyze other = analyze trace) ∧
      (∀ category, (Profile.ofCharges charges).get category =
        min ((charges.filter fun charge => charge.1 = category).map Prod.snd).sum ceiling) ∧
      (Profile.ofCharges charges).total = min (charges.map Prod.snd).sum ceiling := by
  intro amount
  refine ⟨uniform_analyze trace, logarithmic_analyze trace, fun category => ?_, ?_,
    fun other => analyze_perm, Profile.get_ofCharges charges, Profile.total_ofCharges charges⟩
  · rw [profile_analyze, Profile.get_ofCharges, charged_map_chargeOf]
  · rw [profile_analyze, Profile.total_ofCharges, logarithmic_analyze, List.map_map]
    rfl

/-- A full counter next to one that is not, and steps in another order. -/
theorem totals_are_exact_full :
    let write : Step := ⟨1, .write (.literal 8), .withCapacity 1⟩
    let jump : Step := ⟨2, .jump 3, .withCapacity 1⟩
    let halt : Step := ⟨3, .halt, .withCapacity 1⟩
    let profile := Profile.ofCharges [(.io, 5), (.arithmetic, ceiling), (.arithmetic, 1)]
    [write, jump, halt].Perm [halt, write, jump] ∧
      analyze [halt, write, jump] = analyze [write, jump, halt] ∧
      (analyze [write, jump, halt]).uniform = 2 ∧
      (analyze [write, jump, halt]).profile.total = 6 ∧
      profile.get .arithmetic = ceiling ∧ profile.get .io = 5 ∧ profile.total = ceiling := by
  intro write jump halt profile
  obtain ⟨huniform, hlogarithmic, -, htotal, horder, hget, hsum⟩ :=
    totals_are_exact [write, jump, halt] [(.io, 5), (.arithmetic, ceiling), (.arithmetic, 1)]
  have hperm : [write, jump, halt].Perm [halt, write, jump] :=
    ((List.Perm.swap halt jump []).cons write).trans (.swap halt write [jump])
  exact ⟨hperm, horder _ hperm, huniform.trans (by decide),
    htotal.trans (hlogarithmic.trans (by decide +kernel)), (hget .arithmetic).trans (by decide),
    (hget .io).trans (by decide), hsum.trans (by decide)⟩

end RandomAccess.Cost
