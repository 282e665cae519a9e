import Mathlib.Algebra.Order.BigOperators.Group.Finset
import Mathlib.Data.Fintype.BigOperators

/-!
# Sums over the members of a system

A quantity of the whole is a sum over its members. A step of one member changes the sum by
what it changes of its own share.
-/

namespace Ucore

open Finset

variable {T : Type} [Fintype T] {t : T}

/-- Only the share of one member changes. -/
theorem sum_add_of_eq (f g : T → ℕ) (h : ∀ u, u ≠ t → f u = g u) :
    (∑ u, f u) + g t = (∑ u, g u) + f t := by
  classical
  have hrest : ∑ u ∈ Finset.univ.erase t, f u = ∑ u ∈ Finset.univ.erase t, g u :=
    sum_congr rfl fun u hu => h u (ne_of_mem_erase hu)
  have hnew := add_sum_erase Finset.univ f (mem_univ t)
  have hold := add_sum_erase Finset.univ g (mem_univ t)
  omega

end Ucore
