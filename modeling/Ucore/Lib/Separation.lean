import Mathlib.Logic.Function.Basic
import Mathlib.Data.Nat.Basic

/-!
# Separated ownership

A family of owners, each with at most one resource, numbered from one on; zero
stands for an owner without a resource. The family is separated if no resource
has two owners. Handing out an unowned resource and dropping resources keep a
family separated.
-/

namespace Ucore

open Function

variable {ι : Type*} {own : ι → ℕ}

/-- No resource has two owners. -/
def Separated (own : ι → ℕ) : Prop := ∀ i j, own i = own j → own i ≠ 0 → i = j

/-- A resource that nobody owns can be handed to any owner. -/
theorem Separated.update [DecidableEq ι] (h : Separated own) {i : ι} {b : ℕ} (hb : ∀ j, own j ≠ b) :
    Separated (update own i b) := by
  intro j k heq hne
  by_cases hj : j = i <;> by_cases hk : k = i
  · rw [hj, hk]
  · subst hj
    rw [update_self, update_of_ne hk] at heq
    exact absurd heq.symm (hb k)
  · subst hk
    rw [update_of_ne hj, update_self] at heq
    exact absurd heq (hb j)
  · rw [update_of_ne hj] at heq hne
    rw [update_of_ne hk] at heq
    exact h j k heq hne

/-- A family that only dropped resources is still separated. -/
theorem Separated.drop {own' : ι → ℕ} (h : Separated own) (hle : ∀ i, own' i = own i ∨ own' i = 0) :
    Separated own' := by
  intro i j heq hne
  have hi : own' i = own i := (hle i).resolve_right hne
  have hj : own' j = own j := (hle j).resolve_right (heq ▸ hne)
  exact h i j (by rw [← hi, heq, hj]) (hi ▸ hne)

/-- A resource owned at one place is not owned at another. -/
theorem Separated.ne (h : Separated own) {i j : ι} (hij : i ≠ j) (hi : own i ≠ 0) : own j ≠ own i :=
  fun heq => hij (h i j heq.symm hi)

end Ucore
