import Mathlib.Algebra.Order.Ring.Nat
import Mathlib.Data.Nat.Bitwise

/-!
# Dyadic blocks

Arithmetic of the blocks of `2 ^ k` consecutive numbers that start at a multiple of
`2 ^ k`. Two such blocks are buddies if their starts differ in bit `k` only; together
they make up a block of the next size.
-/

namespace Ucore

variable {i k n : ℕ}

/-- The block with which the block of size `2 ^ k` at `i` merges. -/
def buddyOf (i k : ℕ) : ℕ := i ^^^ 2 ^ k

/-- The masks that the low bits of a multiple of `2 ^ k` meet. -/
theorem and_mask_eq_zero : i &&& (2 ^ k - 1) = 0 ↔ 2 ^ k ∣ i := by
  rw [Nat.and_two_pow_sub_one_eq_mod, Nat.dvd_iff_mod_eq_zero]

theorem and_two_pow_eq_zero : i &&& 2 ^ k = 0 ↔ i / 2 ^ k % 2 = 0 := by
  rw [Nat.and_two_pow, Nat.testBit_eq_decide_div_mod_eq]
  rcases Nat.mod_two_eq_zero_or_one (i / 2 ^ k) with h | h <;> simp [h]

/-- A start with bit `k` clear is the start of the merged block. -/
theorem dvd_succ_of_and (h : 2 ^ k ∣ i) (hbit : i &&& 2 ^ k = 0) : 2 ^ (k + 1) ∣ i := by
  obtain ⟨c, rfl⟩ := h
  have hpos : 0 < 2 ^ k := Nat.two_pow_pos k
  rw [and_two_pow_eq_zero, Nat.mul_div_cancel_left _ hpos] at hbit
  exact Nat.mul_dvd_mul_left _ (Nat.dvd_of_mod_eq_zero hbit)

/-- Passing over a block whose start has bit `k` set leads to a multiple of the next power. -/
theorem dvd_succ_add_of_and (h : 2 ^ k ∣ i) (hbit : i &&& 2 ^ k ≠ 0) : 2 ^ (k + 1) ∣ i + 2 ^ k := by
  obtain ⟨c, rfl⟩ := h
  have hpos : 0 < 2 ^ k := Nat.two_pow_pos k
  rw [Ne, and_two_pow_eq_zero, Nat.mul_div_cancel_left _ hpos] at hbit
  have hodd : (c + 1) % 2 = 0 := by omega
  exact Nat.mul_dvd_mul_left _ (Nat.dvd_of_mod_eq_zero hodd)

theorem buddyOf_lower (h : 2 ^ (k + 1) ∣ i) : buddyOf i k = i + 2 ^ k := by
  obtain ⟨c, rfl⟩ := h
  have hlt : 2 ^ k < 2 ^ (k + 1) := Nat.pow_lt_pow_succ (by decide)
  rw [buddyOf, Nat.two_pow_add_eq_or_of_lt hlt]
  refine Nat.eq_of_testBit_eq fun j => ?_
  rw [Nat.testBit_xor, Nat.testBit_or, Nat.testBit_two_pow_mul]
  rcases eq_or_ne k j with rfl | hj
  · simp
  · simp [hj]

theorem buddyOf_upper (h : 2 ^ (k + 1) ∣ i) : buddyOf (i + 2 ^ k) k = i := by
  rw [← buddyOf_lower h, buddyOf, buddyOf, Nat.xor_xor_cancel_right]

/-- A block is the lower or the upper half of the block it merges to. -/
theorem lower_or_upper (h : 2 ^ k ∣ i) :
    2 ^ (k + 1) ∣ i ∨ ∃ j, 2 ^ (k + 1) ∣ j ∧ i = j + 2 ^ k := by
  by_cases hbit : i &&& 2 ^ k = 0
  · exact .inl (dvd_succ_of_and h hbit)
  · have hup := dvd_succ_add_of_and h hbit
    have hle : 2 ^ k ≤ i := Nat.le_of_dvd (Nat.pos_of_ne_zero (by rintro rfl; simp at hbit)) h
    refine .inr ⟨i - 2 ^ k, ?_, by omega⟩
    have htwo : i - 2 ^ k = i + 2 ^ k - 2 ^ (k + 1) := by
      omega
    rw [htwo]
    exact Nat.dvd_sub hup (dvd_refl _)

/-- The start of the merged block. -/
theorem and_buddyOf_lower (h : 2 ^ (k + 1) ∣ i) : i &&& buddyOf i k = i := by
  rw [buddyOf_lower h]
  obtain ⟨c, rfl⟩ := h
  have hlt : 2 ^ k < 2 ^ (k + 1) := Nat.pow_lt_pow_succ (by decide)
  rw [Nat.two_pow_add_eq_or_of_lt hlt]
  refine Nat.eq_of_testBit_eq fun j => ?_
  rw [Nat.testBit_and, Nat.testBit_or]
  cases (2 ^ (k + 1) * c).testBit j <;> rfl

theorem and_buddyOf_upper (h : 2 ^ (k + 1) ∣ i) : (i + 2 ^ k) &&& buddyOf (i + 2 ^ k) k = i := by
  rw [buddyOf_upper h, Nat.and_comm, ← buddyOf_lower h, and_buddyOf_lower h]

end Ucore
