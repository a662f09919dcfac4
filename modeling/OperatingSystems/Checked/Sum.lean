import Mathlib.Algebra.Order.BigOperators.Group.List

/-!
# Sums that must fit

Addition of numbers that have to stay between two bounds. `fit` lets a number
through that does; `sum` adds the numbers of a list one after the other and
checks every partial sum. Where no number is negative, only the last partial sum
matters.
-/

namespace OperatingSystems

namespace Checked

variable {α : Type*} [LinearOrder α]

/-- The number, if it lies between the bounds. -/
def fit (lo hi n : α) : Option α := if lo ≤ n ∧ n ≤ hi then some n else none

variable {lo hi n m acc s : α} {l : List α}

theorem fit_of_mem (hlo : lo ≤ n) (hhi : n ≤ hi) : fit lo hi n = some n := if_pos ⟨hlo, hhi⟩

theorem fit_eq_some : fit lo hi n = some m ↔ m = n ∧ lo ≤ n ∧ n ≤ hi := by
  rw [fit]
  split
  next h => simp [h, eq_comm]
  next h => simp [h]

variable [AddCommMonoid α]

/-- The sum of a start value and the numbers of a list, with every partial sum
checked. -/
def sum (lo hi : α) (acc : α) (l : List α) : Option α :=
  l.foldlM (fun acc n => fit lo hi (acc + n)) acc

theorem sum_nil : sum lo hi acc [] = some acc := rfl

theorem sum_cons : sum lo hi acc (n :: l) = (fit lo hi (acc + n)).bind (sum lo hi · l) := rfl

/-- A sum that was computed is the sum, and it fits. -/
theorem eq_of_sum (hlo : lo ≤ acc) (hhi : acc ≤ hi) (h : sum lo hi acc l = some s) :
    s = acc + l.sum ∧ lo ≤ s ∧ s ≤ hi := by
  induction l generalizing acc with
  | nil =>
      cases h
      exact ⟨by rw [List.sum_nil, add_zero], hlo, hhi⟩
  | cons n l ih =>
      rw [sum_cons] at h
      obtain ⟨m, hm, hl⟩ := Option.bind_eq_some_iff.mp h
      obtain ⟨rfl, hmlo, hmhi⟩ := fit_eq_some.mp hm
      obtain ⟨rfl, hs⟩ := ih hmlo hmhi hl
      exact ⟨by rw [List.sum_cons, add_assoc], hs⟩

/-- A sum of numbers none of which is negative is computed if it fits. -/
theorem sum_of_nonneg [IsOrderedAddMonoid α] (hacc : lo ≤ acc) (hl : ∀ n ∈ l, 0 ≤ n)
    (h : acc + l.sum ≤ hi) : sum lo hi acc l = some (acc + l.sum) := by
  induction l generalizing acc with
  | nil => rw [sum_nil, List.sum_nil, add_zero]
  | cons n l ih =>
      rw [List.sum_cons, ← add_assoc] at h ⊢
      have hn := hl n List.mem_cons_self
      have hrest : ∀ m ∈ l, 0 ≤ m := fun m hm => hl m (List.mem_cons_of_mem n hm)
      have hstep : acc + n ≤ hi := le_trans (le_add_of_nonneg_right (List.sum_nonneg hrest)) h
      have hlo : lo ≤ acc + n := hacc.trans (le_add_of_nonneg_right hn)
      rw [sum_cons, fit_of_mem hlo hstep]
      exact ih hlo hrest h

end Checked

end OperatingSystems
