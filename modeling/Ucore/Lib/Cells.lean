import Mathlib.Algebra.Order.Group.Multiset

/-!
# Cells of a memory

A cell is an address with what is there. A memory holds a multiset of cells if their addresses
are different and it has at each what the cell says. Sums of multisets separate: a write to one
cell leaves the other summands as they are, and the order of the summands is changed by the laws
of addition.
-/

namespace Ucore

open Function Multiset

variable {α β : Type*} {mem : α → β} {M N K : Multiset (α × β)} {x y : α} {a b : β}

/-- The memory holds the cells, which are at different addresses. -/
structure Holds (mem : α → β) (M : Multiset (α × β)) : Prop where
  nodup : (M.map Prod.fst).Nodup
  eq : ∀ c ∈ M, mem c.1 = c.2

namespace Holds

theorem of_eq (h : Holds mem M) (heq : M = N) : Holds mem N := heq ▸ h

/-- The second summand to the front. -/
theorem swap (h : Holds mem (M + (N + K))) : Holds mem (N + (M + K)) := h.of_eq (add_left_comm ..)

/-- The third summand to the front. -/
theorem third {L : Multiset (α × β)} (h : Holds mem (M + (N + (K + L)))) :
    Holds mem (K + (M + (N + L))) :=
  h.of_eq (by ac_rfl)

/-- The fourth summand to the front. -/
theorem fourth {K' L : Multiset (α × β)} (h : Holds mem (M + (N + (K + (K' + L))))) :
    Holds mem (K' + (M + (N + (K + L)))) :=
  h.of_eq (by ac_rfl)

theorem right (h : Holds mem (M + N)) : Holds mem N where
  nodup := (nodup_add.mp (map_add .. ▸ h.nodup)).2.1
  eq c hc := h.eq c (mem_add.mpr (.inr hc))

/-- What the memory has at the first cell. -/
theorem head (h : Holds mem ({(x, a)} + M)) : mem x = a :=
  h.eq (x, a) (mem_add.mpr (.inl (mem_singleton_self _)))

theorem holds_cell : Holds mem ({(x, a)} + M) ↔ mem x = a ∧ x ∉ M.map Prod.fst ∧ Holds mem M := by
  constructor
  · intro h
    have hnodup := h.nodup
    rw [map_add, map_singleton, singleton_add, nodup_cons] at hnodup
    exact ⟨h.head, hnodup.1, h.right⟩
  · rintro ⟨hx, hnot, h⟩
    refine ⟨?_, fun c hc => ?_⟩
    · rw [map_add, map_singleton, singleton_add, nodup_cons]
      exact ⟨hnot, h.nodup⟩
    · rcases mem_add.mp hc with hc | hc
      · rw [mem_singleton.mp hc]
        exact hx
      · exact h.eq c hc

/-- The address of the first cell is none of the others. -/
theorem ne (h : Holds mem ({(x, a)} + M)) (hy : y ∈ M.map Prod.fst) : x ≠ y := by
  rintro rfl
  exact (holds_cell.mp h).2.1 hy

/-- A write to the first cell. -/
theorem write [DecidableEq α] (h : Holds mem ({(x, a)} + M)) :
    Holds (update mem x b) ({(x, b)} + M) := by
  obtain ⟨-, hnot, h⟩ := holds_cell.mp h
  refine holds_cell.mpr ⟨update_self .., hnot, h.nodup, fun c hc => ?_⟩
  rw [← h.eq c hc]
  refine update_of_ne ?_ ..
  rintro rfl
  exact hnot (mem_map_of_mem _ hc)

end Holds

end Ucore
