import Mathlib.Data.Int.Notation
import Mathlib.Data.List.Nodup

/-!
# A counter of tokens with a queue

Clients wait for tokens in a queue. A token that comes while somebody is queued is handed to the
first client, who leaves the queue with it; otherwise it is added to the value. The clients inside
the waiting call are thus the queued ones and the ones that were handed a token.
-/

namespace Ucore

open List

/-- The clients that satisfy `waiting` are queued and satisfy `asleep`, or were handed a token and
satisfy `given`; nobody is queued beside a positive value. -/
structure TokenQueue {α : Type} (asleep given waiting : α → Prop) (value : ℤ)
    (queue handed : List α) : Prop where
  nodup : queue.Nodup
  queued : ∀ p ∈ queue, waiting p ∧ asleep p
  mem_handed : ∀ p, p ∈ handed ↔ waiting p ∧ p ∉ queue
  of_handed : ∀ p ∈ handed, given p
  nodup_handed : handed.Nodup
  empty : 0 < value → queue = []

namespace TokenQueue

variable {α : Type} {asleep given waiting asleep' given' waiting' : α → Prop}
  {value value' : ℤ} {queue handed : List α} {p : α}

theorem nil (hwaiting : ∀ p, ¬waiting p) : TokenQueue asleep given waiting value [] [] where
  nodup := nodup_nil
  queued _ hp := absurd hp not_mem_nil
  mem_handed p := ⟨nofun, fun hp => absurd hp.1 (hwaiting p)⟩
  of_handed _ hp := absurd hp not_mem_nil
  nodup_handed := nodup_nil
  empty _ := rfl

variable (h : TokenQueue asleep given waiting value queue handed)
include h

/-- The clients stay, and keep what is known of them. -/
theorem frame (hwaiting : ∀ p, waiting' p ↔ waiting p)
    (hasleep : ∀ p, waiting p → asleep p → asleep' p)
    (hgiven : ∀ p, waiting p → given p → given' p) :
    TokenQueue asleep' given' waiting' value queue handed where
  nodup := h.nodup
  queued p hp := ⟨(hwaiting p).mpr (h.queued p hp).1, hasleep p (h.queued p hp).1 (h.queued p hp).2⟩
  mem_handed p := by rw [hwaiting p, h.mem_handed p]
  of_handed p hp := hgiven p ((h.mem_handed p).mp hp).1 (h.of_handed p hp)
  nodup_handed := h.nodup_handed
  empty := h.empty

/-- A token is taken from the value or added to it. -/
theorem setValue (hempty : queue = []) : TokenQueue asleep given waiting value' queue handed :=
  { h with empty := fun _ => hempty }

/-- A client joins the queue. -/
theorem enqueue (hp : ¬waiting p) (hvalue : ¬0 < value)
    (hwaiting : ∀ q, waiting' q ↔ q = p ∨ waiting q) (hself : asleep' p)
    (hasleep : ∀ q, q ≠ p → asleep q → asleep' q) (hgiven : ∀ q, q ≠ p → given q → given' q) :
    TokenQueue asleep' given' waiting' value (queue ++ [p]) handed := by
  have hqueue : p ∉ queue := fun hmem => hp (h.queued p hmem).1
  have hhanded : p ∉ handed := fun hmem => hp ((h.mem_handed p).mp hmem).1
  constructor
  case nodup =>
    exact nodup_append.mpr ⟨h.nodup, pairwise_singleton _ p, fun q hq r hr heq =>
      hqueue (mem_singleton.mp hr ▸ heq ▸ hq)⟩
  case queued =>
    intro q hq
    rw [hwaiting]
    rcases mem_append.mp hq with hq | hq
    · obtain ⟨hw, ha⟩ := h.queued q hq
      exact ⟨.inr hw, hasleep q (fun heq => hqueue (heq ▸ hq)) ha⟩
    · obtain rfl := mem_singleton.mp hq
      exact ⟨.inl rfl, hself⟩
  case mem_handed =>
    intro q
    rw [mem_append, mem_singleton, hwaiting]
    rcases eq_or_ne q p with rfl | hq
    · tauto
    · rw [h.mem_handed q]
      tauto
  case of_handed => exact fun q hq => hgiven q (fun heq => hhanded (heq ▸ hq)) (h.of_handed q hq)
  case nodup_handed => exact h.nodup_handed
  case empty => exact fun hpos => absurd hpos hvalue

variable [DecidableEq α]

/-- A client leaves, with a token or without. -/
theorem leave (hwaiting : ∀ q, waiting' q ↔ q ≠ p ∧ waiting q) :
    TokenQueue asleep given waiting' value (queue.erase p) (handed.erase p) where
  nodup := h.nodup.erase p
  queued q hq := by
    obtain ⟨hne, hq⟩ := h.nodup.mem_erase_iff.mp hq
    exact ⟨(hwaiting q).mpr ⟨hne, (h.queued q hq).1⟩, (h.queued q hq).2⟩
  mem_handed q := by
    rw [h.nodup_handed.mem_erase_iff, h.nodup.mem_erase_iff, hwaiting, h.mem_handed q]
    tauto
  of_handed q hq := h.of_handed q (mem_of_mem_erase hq)
  nodup_handed := h.nodup_handed.erase p
  empty hpos := by rw [h.empty hpos, erase_nil]

/-- A token is handed to the first client of the queue. -/
theorem handOver {rest : List α} (hqueue : queue = p :: rest) (hself : given' p)
    (hasleep : ∀ q, q ≠ p → asleep q → asleep' q) (hgiven : ∀ q, q ≠ p → given q → given' q) :
    TokenQueue asleep' given' waiting value (queue.erase p) (p :: handed) := by
  subst hqueue
  obtain ⟨hprest, hrest⟩ := nodup_cons.mp h.nodup
  rw [erase_cons_head]
  constructor
  case nodup => exact hrest
  case queued =>
    intro q hq
    obtain ⟨hw, ha⟩ := h.queued q (mem_cons_of_mem p hq)
    exact ⟨hw, hasleep q (fun heq => hprest (heq ▸ hq)) ha⟩
  case mem_handed =>
    intro q
    rw [mem_cons, h.mem_handed q, mem_cons]
    rcases eq_or_ne q p with rfl | hq
    · exact ⟨fun _ => ⟨(h.queued q (.head _)).1, hprest⟩, fun _ => .inl rfl⟩
    · tauto
  case of_handed =>
    intro q hq
    by_cases hqp : q = p
    · rwa [hqp]
    · exact hgiven q hqp (h.of_handed q ((mem_cons.mp hq).resolve_left hqp))
  case nodup_handed =>
    exact nodup_cons.mpr ⟨fun hp => ((h.mem_handed p).mp hp).2 (.head _), h.nodup_handed⟩
  case empty => exact fun hpos => absurd (h.empty hpos) (by simp)

end TokenQueue

end Ucore
