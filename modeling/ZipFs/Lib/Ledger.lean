import Mathlib.Algebra.GroupWithZero.Nat
import Mathlib.Algebra.Order.BigOperators.Group.Finset

/-!
# Totals over accounts

What is held in the cells of a list and in the hands of finitely many holders is added up
in natural numbers. The lemmas say how a total moves when one account does, in the form in
which a sum on both sides leaves the rest to linear arithmetic.
-/

namespace Lib

variable {α β τ : Type}

/-- The total over a list in which one cell is replaced. -/
theorem sum_map_set {xs : List α} {i : Nat} {a : α} (h : xs[i]? = some a) (b : α) (g : α → Nat) :
    ((xs.set i b).map g).sum + g a = (xs.map g).sum + g b := by
  induction xs generalizing i with
  | nil => exact absurd h (by simp)
  | cons x xs ih =>
      cases i with
      | zero =>
          obtain rfl := Option.some.inj h
          simp only [List.set_cons_zero, List.map_cons, List.sum_cons]
          omega
      | succ i =>
          have := ih (i := i) h
          simp only [List.set_cons_succ, List.map_cons, List.sum_cons]
          omega

variable [DecidableEq τ] {ts : Finset τ} {t : τ}

/-- The total over holders of whom one changes what it holds. -/
theorem sum_update (h : t ∈ ts) (f : τ → β) (b : β) (g : β → Nat) :
    ∑ u ∈ ts, g (Function.update f t b u) + g (f t) = ∑ u ∈ ts, g (f u) + g b := by
  have hrest : ∑ u ∈ ts.erase t, g (Function.update f t b u) = ∑ u ∈ ts.erase t, g (f u) := by
    refine Finset.sum_congr rfl fun u hu => ?_
    rw [Function.update_of_ne (Finset.ne_of_mem_erase hu)]
  have hnew := Finset.add_sum_erase ts (fun u => g (Function.update f t b u)) h
  have hold := Finset.add_sum_erase ts (fun u => g (f u)) h
  simp only [Function.update_self] at hnew
  omega

/-- Somebody who holds nothing does not count. -/
theorem sum_insert_of_absent (f : τ → Nat) (h : t ∉ ts → f t = 0) :
    ∑ u ∈ insert t ts, f u = ∑ u ∈ ts, f u := by
  by_cases ht : t ∈ ts
  · rw [Finset.insert_eq_of_mem ht]
  · rw [Finset.sum_insert ht, h ht, Nat.zero_add]

/-- One holder holds no more than all of them. -/
theorem le_sum_of_holder (f : τ → Nat) (h : t ∉ ts → f t = 0) : f t ≤ ∑ u ∈ ts, f u := by
  by_cases ht : t ∈ ts
  · exact Finset.single_le_sum_of_canonicallyOrdered ht
  · rw [h ht]
    exact Nat.zero_le _

end Lib
