/-!
# Growth by doubling

A buffer that has to hold an index doubles until the index fits. Its capacity is then the old one
doubled a number of times, and at most twice the index if it had to grow at all.
-/

namespace RandomAccess

/-- The first of `capacity`, `2 * capacity`, `4 * capacity`, … that is above `index`. A capacity
of 0 stays as it is. -/
def doubleUntil (index capacity : Nat) : Nat :=
  if capacity = 0 ∨ index < capacity then capacity else doubleUntil index (2 * capacity)
termination_by index + 1 - capacity

/-- An index below the capacity needs no growth. -/
theorem doubleUntil_of_lt {index capacity : Nat} (h : index < capacity) :
    doubleUntil index capacity = capacity := by
  rw [doubleUntil, if_pos (Or.inr h)]

/-- After the growth the index fits. -/
theorem lt_doubleUntil {index capacity : Nat} (h : 0 < capacity) :
    index < doubleUntil index capacity := by
  fun_induction doubleUntil index capacity with
  | case1 capacity hc => omega
  | case2 capacity hc ih => exact ih (by omega)

/-- Doubling never goes back. -/
theorem le_doubleUntil (index capacity : Nat) : capacity ≤ doubleUntil index capacity := by
  fun_induction doubleUntil index capacity with
  | case1 capacity hc => exact Nat.le_refl capacity
  | case2 capacity hc ih => omega

/-- A growth stops at the first capacity that is large enough, so it is at most twice the index. -/
theorem doubleUntil_le {index capacity : Nat} (h : capacity ≤ index) :
    doubleUntil index capacity ≤ 2 * index := by
  fun_induction doubleUntil index capacity with
  | case1 capacity hc => omega
  | case2 capacity hc ih =>
    by_cases hi : index < 2 * capacity
    · rw [doubleUntil_of_lt hi]
      omega
    · exact ih (by omega)

end RandomAccess
