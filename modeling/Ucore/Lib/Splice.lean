import Mathlib.Data.List.Basic

/-!
# Flat arrays

Overwriting, resizing and slicing of lists, and how they act on a list that is given
by a function of the position.
-/

namespace Ucore

open List

variable {α : Type*} {f g : ℕ → α} {n off len : ℕ} {z : α} {data l : List α}

/-- `l` with `data` written from position `off` on. -/
def splice (l : List α) (off : ℕ) (data : List α) : List α :=
  l.take off ++ data ++ l.drop (off + data.length)

/-- `l` cut or extended with `z` to the length `len`. -/
def resize (z : α) (l : List α) (len : ℕ) : List α :=
  l.take len ++ List.replicate (len - l.length) z

/-- `data` written at any position: a gap behind the end of `l` is filled with `z`. -/
def overwrite (z : α) (l : List α) (off : ℕ) : List α → List α
  | [] => l
  | a :: data => splice (resize z l (max l.length off)) off (a :: data)

/-- At most `len` entries of `l` from position `off` on. -/
def slice (l : List α) (off len : ℕ) : List α := (l.drop off).take len

/-- The list of the first `n` values of `f`. -/
def tabulate (f : ℕ → α) (n : ℕ) : List α := (List.range n).map f

@[simp] theorem length_tabulate (f : ℕ → α) (n : ℕ) : (tabulate f n).length = n := by
  simp [tabulate]

@[simp] theorem splice_nil (l : List α) (off : ℕ) : splice l off [] = l := by
  simp [splice]

@[simp] theorem resize_length (z : α) (l : List α) : resize z l l.length = l := by
  simp [resize]

theorem overwrite_of_le (h : off ≤ l.length) : overwrite z l off data = splice l off data := by
  cases data with
  | nil => exact (splice_nil l off).symm
  | cons a data => rw [overwrite, Nat.max_eq_left h, resize_length]

theorem overwrite_of_ne_nil (h : data ≠ []) :
    overwrite z l off data = splice (resize z l (max l.length off)) off data := by
  cases data with
  | nil => exact absurd rfl h
  | cons a data => rfl

theorem getElem?_tabulate (f : ℕ → α) (n p : ℕ) :
    (tabulate f n)[p]? = if p < n then some (f p) else none := by
  unfold tabulate
  split
  · rename_i hp
    rw [List.getElem?_map, List.getElem?_range hp, Option.map_some]
  · rename_i hp
    exact List.getElem?_eq_none (by simpa using hp)

theorem tabulate_congr (h : ∀ p < n, f p = g p) : tabulate f n = tabulate g n := by
  refine ext_getElem? fun p => ?_
  rw [getElem?_tabulate, getElem?_tabulate]
  split
  · rename_i hp
    rw [h p hp]
  · rfl

/-- Overwriting a range that starts within the list. -/
theorem tabulate_eq_splice (hoff : off ≤ n) (hin : ∀ j < data.length, g (off + j) = data.getD j z)
    (hout : ∀ p, p < off ∨ off + data.length ≤ p → g p = f p) :
    tabulate g (max n (off + data.length)) = splice (tabulate f n) off data := by
  have hlen : ((tabulate f n).take off).length = off := by simp [hoff]
  refine ext_getElem? fun p => ?_
  rw [getElem?_tabulate, splice, append_assoc]
  rcases Nat.lt_or_ge p off with hp | hp
  · rw [List.getElem?_append_left (by rw [hlen]; exact hp), List.getElem?_take_of_lt hp,
      getElem?_tabulate, hout p (.inl hp), if_pos (by omega), if_pos (by omega)]
  rw [List.getElem?_append_right (by rw [hlen]; exact hp), hlen]
  rcases Nat.lt_or_ge p (off + data.length) with hp' | hp'
  · have hj : p - off < data.length := by omega
    have hg := hin _ hj
    rw [Nat.add_sub_cancel' hp] at hg
    rw [List.getElem?_append_left hj, if_pos (by omega), hg, getD_eq_getElem?_getD,
      List.getElem?_eq_getElem hj, Option.getD_some]
  · rw [List.getElem?_append_right (by omega), List.getElem?_drop, getElem?_tabulate,
      hout p (.inr hp')]
    have hpos : off + data.length + (p - off - data.length) = p := by omega
    rw [hpos]
    refine if_congr ?_ rfl rfl
    omega

/-- Resizing keeps the common part and fills the rest. -/
theorem tabulate_eq_resize (hkeep : ∀ p, p < n → p < len → g p = f p)
    (hnew : ∀ p, n ≤ p → p < len → g p = z) : tabulate g len = resize z (tabulate f n) len := by
  refine ext_getElem? fun p => ?_
  have hlen : ((tabulate f n).take len).length = min len n := by simp
  rw [getElem?_tabulate, resize, length_tabulate]
  rcases Nat.lt_or_ge p (min len n) with hp | hp
  · rw [List.getElem?_append_left (by rw [hlen]; exact hp),
      List.getElem?_take_of_lt (by omega), getElem?_tabulate, if_pos (by omega),
      if_pos (by omega), hkeep p (by omega) (by omega)]
  · rw [List.getElem?_append_right (by rw [hlen]; exact hp), List.getElem?_replicate]
    by_cases hp' : p < len
    · rw [if_pos hp', if_pos (by omega), hnew p (by omega) hp']
    · rw [if_neg hp', if_neg (by omega)]

/-- What a list of the right length and entries reads is the slice. -/
theorem eq_slice_tabulate (hlen : l.length = min len (n - off))
    (hl : ∀ j < l.length, l.getD j z = f (off + j)) : l = slice (tabulate f n) off len := by
  refine ext_getElem? fun p => ?_
  rw [slice, List.getElem?_take, List.getElem?_drop, getElem?_tabulate]
  by_cases hp : p < l.length
  · have hlp := hl p hp
    rw [getD_eq_getElem?_getD, List.getElem?_eq_getElem hp, Option.getD_some] at hlp
    rw [if_pos (by omega), if_pos (by omega), List.getElem?_eq_getElem hp, hlp]
  · rw [List.getElem?_eq_none (by omega)]
    split
    · rw [if_neg (by omega)]
    · rfl

end Ucore
