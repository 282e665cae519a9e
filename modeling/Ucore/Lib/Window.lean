import Mathlib.Data.List.Basic

/-!
# The unread part of a stream in a ring

A ring stores the element at position `i` of a stream in the slot `slot i`. The window from the
position `r` to the end of the stream is stored if the slots of its positions are distinct and
hold the elements.
-/

namespace Ucore

open Function

variable {κ β : Type*} {slot : ℕ → κ} {buf : κ → β} {sent : List β} {r r' : ℕ} {b : β}

/-- The elements from position `r` on are in their slots, which are distinct. -/
structure Window (slot : ℕ → κ) (buf : κ → β) (sent : List β) (r : ℕ) : Prop where
  apart : ∀ i j, r ≤ i → i < j → j < sent.length → slot i ≠ slot j
  held : ∀ i, r ≤ i → i < sent.length → sent[i]? = some (buf (slot i))

/-- An element is stored in a slot that no position of the window has. -/
theorem Window.push [DecidableEq κ] (h : Window slot buf sent r)
    (hnew : ∀ i, r ≤ i → i < sent.length → slot i ≠ slot sent.length) :
    Window slot (update buf (slot sent.length) b) (sent ++ [b]) r := by
  have hlast : ∀ i, i < (sent ++ [b]).length → i < sent.length ∨ i = sent.length := by
    intro i hi
    rw [List.length_append, List.length_singleton] at hi
    omega
  refine ⟨fun i j hi hij hj => ?_, fun i hi hlt => ?_⟩
  · rcases hlast j hj with hj | rfl
    · exact h.apart i j hi hij hj
    · exact hnew i hi hij
  · rcases hlast i hlt with hlt | rfl
    · rw [List.getElem?_append_left hlt, update_of_ne (hnew i hi hlt)]
      exact h.held i hi hlt
    · rw [List.getElem?_concat_length, update_self]

/-- Positions leave the window. -/
theorem Window.drop (h : Window slot buf sent r) (hr : r ≤ r') : Window slot buf sent r' :=
  ⟨fun i j hi => h.apart i j (Nat.le_trans hr hi), fun i hi => h.held i (Nat.le_trans hr hi)⟩

end Ucore
