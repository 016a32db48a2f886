import Mathlib.Algebra.GroupWithZero.Nat
import RandomAccess.Cost.Report

/-!
# Totals of a trace

A total that is cut to the largest amount after each addition is the exact one, cut once. The
uniform cost of a trace therefore counts its steps, all but `HALT`, up to the largest amount.
-/

namespace RandomAccess.Cost

/-- Cutting a sum at every addition comes to cutting it once. -/
theorem foldl_saturatingAdd {α : Type} (amount : α → Nat) (items : List α) {total : Nat}
    (h : total ≤ ceiling) :
    items.foldl (fun total item => saturatingAdd total (amount item)) total =
      min (total + (items.map amount).sum) ceiling := by
  induction items generalizing total with
  | nil => simp only [List.foldl_nil, List.map_nil, List.sum_nil]; omega
  | cons item items ih =>
    have hnext : saturatingAdd total (amount item) ≤ ceiling := Nat.min_le_right _ _
    rw [List.foldl_cons, ih hnext, List.map_cons, List.sum_cons, saturatingAdd]
    omega

/-- In the uniform model all instructions but `HALT` weigh the same, whatever the registers hold. -/
theorem weight_uniform (instruction : Instruction) (registers : RegisterFile) :
    weight .uniform instruction registers = if instruction = .halt then 0 else 1 := by
  cases instruction <;> rfl

/-- The uniform weights of a trace count its steps that are not `HALT`. -/
theorem sum_weight_uniform (trace : List Step) :
    (trace.map fun step => weight .uniform step.instruction step.registers).sum =
      trace.countP fun step => step.instruction ≠ .halt := by
  induction trace with
  | nil => rfl
  | cons step trace ih =>
    rw [List.map_cons, List.sum_cons, ih, List.countP_cons, weight_uniform, Nat.add_comm]
    by_cases h : step.instruction = .halt
    · simp [h]
    · simp [h]

/-- The uniform cost of a trace is that count, up to the largest amount. -/
theorem uniform_analyze (trace : List Step) :
    (analyze trace).uniform =
      min (trace.countP fun step => step.instruction ≠ .halt) ceiling := by
  have hfold : (analyze trace).uniform = trace.foldl (fun total step =>
      saturatingAdd total (weight .uniform step.instruction step.registers)) 0 :=
    (List.foldl_hom Report.uniform fun _ _ => rfl).symm
  rw [hfold, foldl_saturatingAdd _ _ (Nat.zero_le _), Nat.zero_add, sum_weight_uniform]

end RandomAccess.Cost
