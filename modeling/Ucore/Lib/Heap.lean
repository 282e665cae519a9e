import Ucore.Lib.Outcome
import Mathlib.Data.List.Basic

/-!
# An allocator of blocks

An allocator hands out some block that is not in use, or none. Which one is not known, so the
state holds a sequence of proposals, one for each request; a proposal that is in use stands for
a failed request. What holds for all sequences of proposals holds for every allocator that
never hands out a block in use.
-/

namespace Ucore

/-- The blocks in use, and the proposals for the requests to come. -/
structure Heap (β : Type) where
  proposal : ℕ → Option β
  clock : ℕ
  live : List β

namespace Heap

variable {ε β : Type} [DecidableEq β] {H : Prop} {E : ε → Heap β → Prop} {h : Heap β}

/-- A block that was not in use, or none. -/
def alloc : Kern ε (Heap β) (Option β) := fun h =>
  match (h.proposal h.clock).filter (· ∉ h.live) with
  | some b => .done (some b) { h with clock := h.clock + 1, live := b :: h.live }
  | none => .done none { h with clock := h.clock + 1 }

/-- The next request fails. -/
def Full (h : Heap β) : Prop := (h.proposal h.clock).filter (· ∉ h.live) = none

/-- A block is given back. -/
def free (b : β) : Kern ε (Heap β) Unit :=
  Kern.modify fun h => { h with live := h.live.erase b }

theorem wp_alloc {Q : Option β → Heap β → Prop}
    (hnone : ∀ h', h.Full → h'.live = h.live → Q none h')
    (hsome : ∀ b h', b ∉ h.live → h'.live = b :: h.live → Q (some b) h') :
    (alloc : Kern ε (Heap β) (Option β)).wp H E Q h := by
  unfold Kern.wp alloc
  cases hb : (h.proposal h.clock).filter (· ∉ h.live) with
  | none => exact hnone _ hb rfl
  | some b =>
    have hmem := (Option.filter_eq_some_iff.mp hb).2
    exact hsome b _ (by simpa using hmem) rfl

end Heap

end Ucore
