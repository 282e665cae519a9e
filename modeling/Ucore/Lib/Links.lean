import Mathlib.Data.List.Basic

/-!
# Linked lists

A linked list with a head is a list of its elements; a link is an element, or none for the
head. The lemmas say what the link after one is and where a new element goes, in terms of the
two parts of the list that the link separates.
-/

namespace Ucore

open List

variable {α : Type} [DecidableEq α] {pre post : List α} {p : α}

/-- `list_next`. -/
def nextOf (l : List α) : Option α → Option α
  | none => l.head?
  | some p => (l.dropWhile (· ≠ p)).tail.head?

/-- `list_add_after`. -/
def insertAfter (x : α) (l : List α) : Option α → List α
  | none => x :: l
  | some p => l.takeWhile (· ≠ p) ++ p :: x :: (l.dropWhile (· ≠ p)).tail

theorem dropWhile_ne (hp : p ∉ pre) : (pre ++ p :: post).dropWhile (· ≠ p) = p :: post := by
  induction pre with
  | nil => simp
  | cons a pre ih =>
    obtain ⟨hne, hmem⟩ := not_or.mp (mt mem_cons.mpr hp)
    rw [cons_append, dropWhile_cons_of_pos (by simpa using Ne.symm hne)]
    exact ih hmem

theorem takeWhile_ne (hp : p ∉ pre) : (pre ++ p :: post).takeWhile (· ≠ p) = pre := by
  induction pre with
  | nil => simp
  | cons a pre ih =>
    obtain ⟨hne, hmem⟩ := not_or.mp (mt mem_cons.mpr hp)
    rw [cons_append, takeWhile_cons_of_pos (by simpa using Ne.symm hne), ih hmem]

omit [DecidableEq α] in
/-- The last element of the first part, if it has one. -/
theorem eq_nil_or_getLast (pre : List α) :
    pre = [] ∨ ∃ front p, pre = front ++ [p] ∧ pre.getLast? = some p := by
  rcases eq_nil_or_concat pre with rfl | ⟨front, p, rfl⟩
  · exact .inl rfl
  · exact .inr ⟨front, p, by simp, by simp⟩

omit [DecidableEq α] in
/-- In a list without repetitions an element stands at one place. -/
theorem notMem_front (h : (pre ++ p :: post).Nodup) : p ∉ pre :=
  fun hmem => (nodup_append.mp h).2.2 p hmem p mem_cons_self rfl

theorem erase_middle (h : (pre ++ p :: post).Nodup) : (pre ++ p :: post).erase p = pre ++ post := by
  rw [erase_append_right _ (notMem_front h), erase_cons_head]

theorem nextOf_getLast (h : (pre ++ post).Nodup) :
    nextOf (pre ++ post) pre.getLast? = post.head? := by
  rcases eq_nil_or_getLast pre with rfl | ⟨front, p, rfl, hlast⟩
  · rfl
  · rw [hlast, nextOf]
    rw [append_assoc, singleton_append] at h ⊢
    rw [dropWhile_ne (notMem_front h), tail_cons]

theorem insertAfter_getLast {x : α} (h : (pre ++ post).Nodup) :
    insertAfter x (pre ++ post) pre.getLast? = pre ++ x :: post := by
  rcases eq_nil_or_getLast pre with rfl | ⟨front, p, rfl, hlast⟩
  · rfl
  · rw [hlast, insertAfter]
    rw [append_assoc, singleton_append] at h ⊢
    have hp := notMem_front h
    rw [dropWhile_ne hp, takeWhile_ne hp, tail_cons, append_assoc, singleton_append]

omit [DecidableEq α] in
/-- In a list whose elements have a property up to some point, what is left after them has it
not. -/
theorem not_of_mem_dropWhile {q : α → Bool} {l : List α} {b : α}
    (h : l.Pairwise fun a b => q b = true → q a = true) (hb : b ∈ l.dropWhile q) :
    q b = false := by
  induction l with
  | nil => cases hb
  | cons a l ih =>
    obtain ⟨ha, hl⟩ := pairwise_cons.mp h
    by_cases hq : q a = true
    · rw [dropWhile_cons_of_pos hq] at hb
      exact ih hl hb
    · rw [dropWhile_cons_of_neg hq] at hb
      rw [Bool.not_eq_true] at hq
      rcases mem_cons.mp hb with rfl | hb
      · exact hq
      · by_contra hne
        rw [Bool.not_eq_false] at hne
        rw [ha b hb hne] at hq
        cases hq

/-- The link after an element. -/
theorem nextOf_some (hp : p ∉ pre) : nextOf (pre ++ p :: post) (some p) = post.head? := by
  rw [nextOf, dropWhile_ne hp, tail_cons]

end Ucore
